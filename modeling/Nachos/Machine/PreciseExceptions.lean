import Nachos.Machine.Mips

/-!
# Precise exceptions

An instruction that raises an exception leaves the machine as it was, up to the delayed load that
`RaiseException` completes and to the use bits of the pages. So it can be run again when a page
fault has been resolved: the second run reads the registers that the first one would have read,
unless the instruction has to do with the register of the delayed load.
-/

namespace Nachos

namespace Mips

/-! ## What an instruction reads and writes -/

/-- The registers that an instruction takes its operands from, with the program counters. -/
def Instruction.reads (instr : Instruction) : List (Fin 40) :=
  [PCReg, NextPCReg] ++
    match instr.opCode with
    | .add | .addu | .and | .beq | .bne | .div | .divu | .lwl | .lwr | .mult | .multu | .nor | .sb
    | .sh | .sllv | .slt | .sltu | .srav | .srlv | .sub | .subu | .sw | .swl | .swr | .xor =>
        [gpr instr.rs, gpr instr.rt]
    | .addi | .addiu | .andi | .bgez | .bgezal | .bgtz | .blez | .bltz | .bltzal | .jalr | .jr | .lb
    | .lbu | .lh | .lhu | .lw | .mthi | .mtlo | .or | .ori | .slti | .sltiu | .xori =>
        [gpr instr.rs]
    | .sll | .sra | .srl => [gpr instr.rt]
    | .mfhi => [HiReg]
    | .mflo => [LoReg]
    | .j | .jal | .lui | .rfe | .syscall | .unimp | .res | .special | .bcond => []

/-- The registers that an instruction gives a value, that of a load included. -/
def Instruction.writes (instr : Instruction) : List (Fin 40) :=
  match instr.opCode with
  | .add | .addu | .and | .jalr | .mfhi | .mflo | .nor | .or | .sll | .sllv | .slt | .sltu | .sra
  | .srav | .srl | .srlv | .sub | .subu | .xor => [gpr instr.rd]
  | .addi | .addiu | .andi | .lb | .lbu | .lh | .lhu | .lui | .lw | .lwl | .lwr | .ori | .slti
  | .sltiu | .xori => [gpr instr.rt]
  | .bgezal | .bltzal | .jal => [R31]
  | .div | .divu | .mult | .multu => [HiReg, LoReg]
  | .mthi => [HiReg]
  | .mtlo => [LoReg]
  | .beq | .bgez | .bgtz | .blez | .bltz | .bne | .j | .jr | .sb | .sh | .sw | .swl | .swr | .rfe
  | .syscall | .unimp | .res | .special | .bcond => []

variable {instr : Instruction} {r r' : Registers}

theorem gpr_lt (i : Fin 32) : (gpr i).val < 32 := i.isLt

theorem gpr_ne_zero {i : Fin 32} (h : i ≠ 0) : gpr i ≠ 0 := by
  intro heq
  have hval := congrArg Fin.val heq
  exact h (Fin.ext hval)

theorem lt_of_mem_reads {i : Fin 40} (h : i ∈ instr.reads) : i.val < 36 := by
  have hrs := gpr_lt instr.rs
  have hrt := gpr_lt instr.rt
  unfold Instruction.reads at h
  split at h <;>
    simp only [List.mem_append, List.mem_cons, List.not_mem_nil, or_false] at h <;>
    grind [PCReg, NextPCReg, HiReg, LoReg]

theorem lt_of_mem_writes {i : Fin 40} (h : i ∈ instr.writes) : i.val < 34 := by
  have hrt := gpr_lt instr.rt
  have hrd := gpr_lt instr.rd
  have hlink := gpr_lt 31
  unfold Instruction.writes at h
  split at h <;> simp only [List.mem_cons, List.not_mem_nil, or_false] at h <;>
    grind [R31, HiReg, LoReg]

/-- The registers that an instruction assigns are among those that it writes. -/
theorem assign_subset_writes {ws : List (Fin 40 × BitVec 32)} {pcAfter : BitVec 32}
    (h : instr.execute r = .assign ws pcAfter) : ws.map Prod.fst ⊆ instr.writes := by
  rcases instr with ⟨op, rs, rt, rd, extra⟩
  cases op <;> simp only [Instruction.execute] at h <;> (try split at h) <;> (try split at h) <;>
    cases h <;> simp [Instruction.writes]

/-- An instruction that finds its operands the same does the same. -/
theorem execute_congr (h : ∀ i ∈ instr.reads, r' i = r i)
    (hmerged : instr.opCode = .lwr → merged r' instr.rt = merged r instr.rt) :
    instr.execute r' = instr.execute r := by
  rcases instr with ⟨op, rs, rt, rd, extra⟩
  cases op <;> simp_all [Instruction.reads, Instruction.execute, Function.update_apply]

/-- A load for the register 0 may find another value there, and the value is lost. -/
inductive Similar : Execution → Execution → Prop where
  | refl (x : Execution) : Similar x x
  | lost (addr : BitVec 32) (size : ℕ) (value value' : BitVec 32 → BitVec 32) :
      Similar (.load addr size 0 value) (.load addr size 0 value')

theorem execute_similar (h : ∀ i ∈ instr.reads, r' i = r i)
    (hmerged : instr.opCode = .lwr → instr.rt ≠ 0 → merged r' instr.rt = merged r instr.rt) :
    Similar (instr.execute r) (instr.execute r') := by
  by_cases hlost : instr.opCode = .lwr ∧ instr.rt = 0
  · obtain ⟨hop, hrt⟩ := hlost
    have hrs : r' (gpr instr.rs) = r (gpr instr.rs) := h _ (by simp [Instruction.reads, hop])
    simp only [Instruction.execute, hop, hrs, hrt]
    split
    · exact .refl _
    · exact .lost _ _ _ _
  · have hsame := execute_congr h fun hop => hmerged hop fun hrt => hlost ⟨hop, hrt⟩
    rw [hsame]
    exact .refl _

/-! ## Accesses to memory -/

/-- The entries of two page tables differ at most in the use bit and the dirty bit. -/
def OnlyMarked (pageTable pageTable' : ℕ → TranslationEntry) : Prop :=
  ∀ vpn, pageTable' vpn =
    { pageTable vpn with use := (pageTable' vpn).use, dirty := (pageTable' vpn).dirty }

/-- Two machines have the same memory, also as the program sees it. -/
structure Alike (m m' : Machine) : Prop where
  mainMemory : m'.mainMemory = m.mainMemory
  pageTableSize : m'.pageTableSize = m.pageTableSize
  pageTable : OnlyMarked m.pageTable m'.pageTable

theorem OnlyMarked.refl (pageTable : ℕ → TranslationEntry) : OnlyMarked pageTable pageTable :=
  fun _ => rfl

theorem OnlyMarked.trans {t₁ t₂ t₃ : ℕ → TranslationEntry} (h : OnlyMarked t₁ t₂)
    (h' : OnlyMarked t₂ t₃) : OnlyMarked t₁ t₃ := by
  intro vpn
  rw [h' vpn, h vpn]

/-- A translation marks the entry that it has found. -/
theorem OnlyMarked.mark {t t' : ℕ → TranslationEntry} (h : OnlyMarked t t') (vpn : ℕ)
    (use use' dirty dirty' : Bool) :
    OnlyMarked (Function.update t vpn { t vpn with use := use, dirty := dirty })
      (Function.update t' vpn { t' vpn with use := use', dirty := dirty' }) := by
  intro v
  by_cases hv : v = vpn
  · subst hv
    simp only [Function.update_self]
    rw [h v]
  · simp only [Function.update_of_ne hv]
    exact h v

/-- What `Translate` comes to does not depend on the bits that it sets. -/
theorem OnlyMarked.translate_eq {t t' : ℕ → TranslationEntry} (h : OnlyMarked t t')
    (pageTableSize size : ℕ) (addr : BitVec 32) (writing : Bool) :
    translate numPhysPages t' pageTableSize addr size writing =
      match translate numPhysPages t pageTableSize addr size writing with
      | .ok (.physical physAddr _) =>
          .ok (.physical physAddr { t' (vpnOf addr) with
            use := true
            dirty := (t' (vpnOf addr)).dirty || writing })
      | x => x := by
  have hvalid : (t' (vpnOf addr)).valid = (t (vpnOf addr)).valid := by rw [h]
  have hreadOnly : (t' (vpnOf addr)).readOnly = (t (vpnOf addr)).readOnly := by rw [h]
  have hframe : pageFrame (t' (vpnOf addr)) = pageFrame (t (vpnOf addr)) := by
    rw [h (vpnOf addr)]
    rfl
  unfold translate
  simp only [hvalid, hreadOnly, hframe]
  split_ifs <;> rfl

variable {m m' m₁ : Machine} {addr value : BitVec 32} {size : ℕ}

theorem readMem_eq {physAddr : ℕ} {entry : TranslationEntry}
    (ht : translate numPhysPages m.pageTable m.pageTableSize addr size false =
      .ok (.physical physAddr entry)) (hl : load m.mainMemory physAddr size = .ok value) :
    m.readMem addr size = .ok (.ok (value,
      { m with pageTable := Function.update m.pageTable (vpnOf addr) entry })) := by
  unfold Machine.readMem
  simp only [ht, hl]

/-- `ReadMem` sets a use bit and leaves the rest of the machine alone. -/
theorem readMem_frame (h : m.readMem addr size = .ok (.ok (value, m₁))) :
    Alike m m₁ ∧ m₁.registers = m.registers := by
  unfold Machine.readMem at h
  split at h
  · cases h
  · cases h
  · rename_i physAddr entry ht
    split at h
    · cases h
    · cases h
      refine ⟨⟨rfl, rfl, ?_⟩, rfl⟩
      obtain ⟨-, -, rfl⟩ := of_translate_physical ht
      intro vpn
      by_cases hv : vpn = vpnOf addr
      · subst hv
        simp only [Function.update_self]
      · simp only [Function.update_of_ne hv]

theorem writeMem_registers (h : m.writeMem addr size value = .ok (.ok m₁)) :
    m₁.registers = m.registers := by
  unfold Machine.writeMem at h
  split at h
  · cases h
  · cases h
  · split at h
    · cases h
    · cases h
      rfl

/-- Two machines with the same memory read the same. -/
theorem Alike.readMem (h : Alike m m') (addr : BitVec 32) (size : ℕ) :
    (∃ fault, m.readMem addr size = .error fault ∧ m'.readMem addr size = .error fault) ∨
      (∃ which, m.readMem addr size = .ok (.error which) ∧
        m'.readMem addr size = .ok (.error which)) ∨
      ∃ value m₁ m₁', m.readMem addr size = .ok (.ok (value, m₁)) ∧
        m'.readMem addr size = .ok (.ok (value, m₁')) ∧ Alike m₁ m₁' := by
  have ht := h.pageTable.translate_eq m.pageTableSize size addr false
  unfold Machine.readMem
  rw [h.pageTableSize, h.mainMemory, ht]
  cases htr : translate numPhysPages m.pageTable m.pageTableSize addr size false with
  | error fault => exact .inl ⟨fault, rfl, rfl⟩
  | ok x =>
    cases x with
    | exception which => exact .inr (.inl ⟨which, rfl, rfl⟩)
    | physical physAddr entry =>
      obtain ⟨-, -, rfl⟩ := of_translate_physical htr
      cases hl : load m.mainMemory physAddr size with
      | error fault => exact .inl ⟨fault, by simp only [hl], by simp only [hl]⟩
      | ok value =>
        refine .inr (.inr ⟨value, _, _, by simp only [hl]; rfl, by simp only [hl]; rfl, ?_⟩)
        exact ⟨rfl, rfl, h.pageTable.mark _ _ _ _ _⟩

/-- Two machines with the same memory write the same. -/
theorem Alike.writeMem (h : Alike m m') (addr : BitVec 32) (size : ℕ) (value : BitVec 32) :
    (∃ fault, m.writeMem addr size value = .error fault ∧
        m'.writeMem addr size value = .error fault) ∨
      (∃ which, m.writeMem addr size value = .ok (.error which) ∧
        m'.writeMem addr size value = .ok (.error which)) ∨
      ∃ m₁ m₁', m.writeMem addr size value = .ok (.ok m₁) ∧
        m'.writeMem addr size value = .ok (.ok m₁') ∧ Alike m₁ m₁' := by
  have ht := h.pageTable.translate_eq m.pageTableSize size addr true
  unfold Machine.writeMem
  rw [h.pageTableSize, h.mainMemory, ht]
  cases htr : translate numPhysPages m.pageTable m.pageTableSize addr size true with
  | error fault => exact .inl ⟨fault, rfl, rfl⟩
  | ok x =>
    cases x with
    | exception which => exact .inr (.inl ⟨which, rfl, rfl⟩)
    | physical physAddr entry =>
      obtain ⟨-, -, rfl⟩ := of_translate_physical htr
      cases hs : store m.mainMemory physAddr value size with
      | error fault => exact .inl ⟨fault, by simp only [hs], by simp only [hs]⟩
      | ok mainMemory =>
        refine .inr (.inr ⟨_, _, by simp only [hs]; rfl, by simp only [hs]; rfl, ?_⟩)
        exact ⟨rfl, rfl, h.pageTable.mark _ _ _ _ _⟩

/-! ## The delayed load -/

/-- `r'` is what `DelayedLoad` makes of `r`. -/
structure LoadDone (r r' : Registers) (nextReg nextValue : BitVec 32) : Prop where
  zero : r' 0 = 0
  loadReg : r' LoadReg = nextReg
  loadValue : r' LoadValueReg = nextValue
  loaded : ∀ i : Fin 40, i ≠ 0 → i ≠ LoadReg → i ≠ LoadValueReg → i.val = (r LoadReg).toNat →
    r' i = r LoadValueReg
  kept : ∀ i : Fin 40, i ≠ 0 → i ≠ LoadReg → i ≠ LoadValueReg → i.val ≠ (r LoadReg).toNat →
    r' i = r i

theorem delayedLoad_ok (h : (r LoadReg).toNat < 40) (nextReg nextValue : BitVec 32) :
    ∃ r', delayedLoad r nextReg nextValue = .ok r' ∧ LoadDone r r' nextReg nextValue := by
  unfold delayedLoad
  rw [dif_pos h]
  refine ⟨_, rfl, ?_, ?_, ?_, ?_, ?_⟩
  · rw [Function.update_self]
  · rw [Function.update_of_ne (by decide), Function.update_of_ne (by decide), Function.update_self]
  · rw [Function.update_of_ne (by decide), Function.update_self]
  · intro i hzero hreg hvalue hi
    have hpending : i = ⟨(r LoadReg).toNat, h⟩ := Fin.ext hi
    rw [Function.update_of_ne hzero, Function.update_of_ne hvalue, Function.update_of_ne hreg,
      hpending, Function.update_self]
  · intro i hzero hreg hvalue hi
    have hpending : i ≠ ⟨(r LoadReg).toNat, h⟩ := fun heq => hi (congrArg Fin.val heq)
    rw [Function.update_of_ne hzero, Function.update_of_ne hvalue, Function.update_of_ne hreg,
      Function.update_of_ne hpending]

theorem of_delayedLoad_ok {nextReg nextValue : BitVec 32}
    (h : delayedLoad r nextReg nextValue = .ok r') :
    (r LoadReg).toNat < 40 ∧ LoadDone r r' nextReg nextValue := by
  have hindex : (r LoadReg).toNat < 40 := by
    by_contra hno
    unfold delayedLoad at h
    rw [dif_neg hno] at h
    cases h
  obtain ⟨r₁, hr₁, hdone⟩ := delayedLoad_ok hindex nextReg nextValue
  rw [hr₁] at h
  cases h
  exact ⟨hindex, hdone⟩

/-! ## What an exception leaves -/

/-- The machine `m'` that `ExceptionHandler` finds after an exception in `m`. -/
structure Entered (m m' : Machine) (badVAddr : BitVec 32) : Prop where
  mainMemory : m'.mainMemory = m.mainMemory
  pageTableSize : m'.pageTableSize = m.pageTableSize
  pageTable : OnlyMarked m.pageTable m'.pageTable
  /-- The pending load has a register of the file. -/
  pending : (m.registers LoadReg).toNat < 40
  loaded : ∀ i : Fin 40, i ≠ 0 → i ≠ LoadReg → i ≠ LoadValueReg →
    i.val = (m.registers LoadReg).toNat → m'.registers i = m.registers LoadValueReg
  /-- The other registers, with the program counters, are as before. -/
  kept : ∀ i : Fin 40, i ≠ 0 → i ≠ LoadReg → i ≠ LoadValueReg → i ≠ BadVAddrReg →
    i.val ≠ (m.registers LoadReg).toNat → m'.registers i = m.registers i
  zero : m'.registers 0 = 0
  loadReg : m'.registers LoadReg = 0
  loadValue : m'.registers LoadValueReg = 0
  badVAddr : BadVAddrReg.val ≠ (m.registers LoadReg).toNat → m'.registers BadVAddrReg = badVAddr

variable {which which' : ExceptionType} {badVAddr badVAddr' : BitVec 32}

theorem raiseException_entered
    (h : m.raiseException which badVAddr = .ok (.exception which' badVAddr' m')) :
    which' = which ∧ badVAddr' = badVAddr ∧ Entered m m' badVAddr := by
  unfold Machine.raiseException at h
  split at h
  · cases h
  · rename_i r hr
    cases h
    obtain ⟨hindex, hdone⟩ := of_delayedLoad_ok hr
    have hreg : Function.update m.registers BadVAddrReg badVAddr LoadReg = m.registers LoadReg :=
      Function.update_of_ne (by decide) _ _
    have hvalue : Function.update m.registers BadVAddrReg badVAddr LoadValueReg =
        m.registers LoadValueReg := Function.update_of_ne (by decide) _ _
    rw [hreg] at hindex
    refine ⟨rfl, rfl, rfl, rfl, OnlyMarked.refl _, hindex, ?_, ?_, hdone.zero, hdone.loadReg,
      hdone.loadValue, ?_⟩
    · intro i hzero hload hlv hi
      rw [← hvalue]
      exact hdone.loaded i hzero hload hlv (by rw [hreg, hi])
    · intro i hzero hload hlv hbad hi
      have hkept := hdone.kept i hzero hload hlv (by rw [hreg]; exact hi)
      exact hkept.trans (Function.update_of_ne hbad _ _)
    · intro hbad
      have hkept := hdone.kept BadVAddrReg (by decide) (by decide) (by decide)
        (by rw [hreg]; exact hbad)
      exact hkept.trans (Function.update_self _ _ _)

/-- `ReadMem` before the exception sets a use bit. -/
theorem Entered.of_alike (halike : Alike m m₁) (hregisters : m₁.registers = m.registers)
    (h : Entered m₁ m' badVAddr) : Entered m m' badVAddr := by
  refine ⟨h.mainMemory.trans halike.mainMemory, h.pageTableSize.trans halike.pageTableSize,
    halike.pageTable.trans h.pageTable, ?_, ?_, ?_, h.zero, h.loadReg, h.loadValue, ?_⟩
  · rw [← hregisters]
    exact h.pending
  · rw [← hregisters]
    exact h.loaded
  · rw [← hregisters]
    exact h.kept
  · rw [← hregisters]
    exact h.badVAddr

theorem finish_ne_exception {nextLoadReg nextLoadValue pcAfter : BitVec 32} :
    m.finish nextLoadReg nextLoadValue pcAfter ≠ .ok (.exception which badVAddr m') := by
  unfold Machine.finish
  split
  · exact fun h => by cases h
  · exact fun h => by cases h

theorem reading_entered {next : BitVec 32 → Machine → Except Fault Ending}
    (hnext : ∀ value m₁, next value m₁ = .ok (.exception which badVAddr m') →
      Entered m₁ m' badVAddr)
    (h : m.reading addr size next = .ok (.exception which badVAddr m')) :
    Entered m m' badVAddr := by
  unfold Machine.reading at h
  split at h
  · cases h
  · obtain ⟨-, rfl, hentered⟩ := raiseException_entered h
    exact hentered
  · rename_i hread
    obtain ⟨halike, hregisters⟩ := readMem_frame hread
    exact (hnext _ _ h).of_alike halike hregisters

/-- `WriteMem` is the last that an instruction does. -/
theorem writing_entered {nextLoadReg nextLoadValue : BitVec 32} {pcAfter : Machine → BitVec 32}
    (h : m.writing addr size value (fun m₁ => m₁.finish nextLoadReg nextLoadValue (pcAfter m₁)) =
      .ok (.exception which badVAddr m')) :
    Entered m m' badVAddr := by
  unfold Machine.writing at h
  split at h
  · cases h
  · obtain ⟨-, rfl, hentered⟩ := raiseException_entered h
    exact hentered
  · exact absurd h finish_ne_exception

/-- No instruction has changed a register or the memory when it raises an exception. -/
theorem perform_entered {x : Execution}
    (h : m.perform x = .ok (.exception which badVAddr m')) : Entered m m' badVAddr := by
  cases x with
  | stop fault => cases h
  | raise which₁ badVAddr₁ =>
    obtain ⟨-, rfl, hentered⟩ := raiseException_entered h
    exact hentered
  | assign writes pcAfter => exact absurd h finish_ne_exception
  | load addr size rt nextLoadValue =>
    exact reading_entered (fun _ _ hfinish => absurd hfinish finish_ne_exception) h
  | store addr size value => exact writing_entered h
  | merge addr value => exact reading_entered (fun _ _ hwrite => writing_entered hwrite) h

theorem oneInstruction_entered (h : m.oneInstruction = .ok (.exception which badVAddr m')) :
    Entered m m' badVAddr :=
  reading_entered (fun _ _ hperform => perform_entered hperform) h

/-! ## Running the instruction again -/

/-- What the program sees of two machines is the same: the general registers, `Hi`, `Lo`, the
program counter and the next one, the pending load and the memory. -/
structure Same (m m' : Machine) : Prop where
  registers : ∀ i : Fin 40, i.val < 36 → m'.registers i = m.registers i
  loadReg : m'.registers LoadReg = m.registers LoadReg
  loadValue : m.registers LoadReg ≠ 0 → m'.registers LoadValueReg = m.registers LoadValueReg
  alike : Alike m m'

def SameEnd : Except Fault Ending → Except Fault Ending → Prop
  | .ok (.finished m), .ok (.finished m') => Same m m'
  | .ok (.exception which badVAddr m), .ok (.exception which' badVAddr' m') =>
      which' = which ∧ badVAddr' = badVAddr ∧ Same m m'
  | .error fault, .error fault' => fault' = fault
  | _, _ => False

/-- The pending load of `r` has been completed in `r'`. -/
structure Resumed (r r' : Registers) : Prop where
  pending : (r LoadReg).toNat < 40
  loadReg : r' LoadReg = 0
  loaded : ∀ i : Fin 40, i ≠ 0 → i.val < 37 → i.val = (r LoadReg).toNat → r' i = r LoadValueReg
  kept : ∀ i : Fin 40, i ≠ 0 → i.val < 37 → i.val ≠ (r LoadReg).toNat → r' i = r i

theorem ne_of_val_lt {i j : Fin 40} (hi : i.val < 37) (hj : 37 ≤ j.val) : i ≠ j :=
  fun h => absurd hj (by rw [← h]; exact Nat.not_le.2 hi)

theorem Entered.resumed (h : Entered m m' badVAddr) : Resumed m.registers m'.registers := by
  refine ⟨h.pending, h.loadReg, ?_, ?_⟩
  · intro i hzero hi
    exact h.loaded i hzero (ne_of_val_lt hi (by decide)) (ne_of_val_lt hi (by decide))
  · intro i hzero hi
    exact h.kept i hzero (ne_of_val_lt hi (by decide)) (ne_of_val_lt hi (by decide))
      (ne_of_val_lt hi (by decide))

/-- The second exception finds no load pending. -/
theorem Resumed.trans {r'' : Registers} (h : Resumed r r') (h' : Resumed r' r'') :
    Resumed r r'' := by
  have hagain : ∀ i : Fin 40, i ≠ 0 → i.val < 37 → r'' i = r' i := by
    intro i hzero hi
    refine h'.kept i hzero hi ?_
    rw [h.loadReg]
    exact fun hval => hzero (Fin.ext hval)
  refine ⟨h.pending, h'.loadReg, ?_, ?_⟩
  · intro i hzero hi hpending
    exact (hagain i hzero hi).trans (h.loaded i hzero hi hpending)
  · intro i hzero hi hpending
    exact (hagain i hzero hi).trans (h.kept i hzero hi hpending)

/-- The pending load that is completed now meets the one that has been completed before. -/
theorem Resumed.load_eq {r₁ r₁' : Registers} {n v n' v' : BitVec 32} (h : Resumed r r')
    (hdone : LoadDone r r₁ n v) (hdone' : LoadDone r' r₁' n' v') {i : Fin 40} (hi : i.val < 37) :
    r₁' i = r₁ i := by
  by_cases hzero : i = 0
  · rw [hzero, hdone.zero, hdone'.zero]
  · have hreg : i ≠ LoadReg := ne_of_val_lt hi (by decide)
    have hvalue : i ≠ LoadValueReg := ne_of_val_lt hi (by decide)
    have hidle : i.val ≠ (r' LoadReg).toNat := by
      rw [h.loadReg]
      exact fun hval => hzero (Fin.ext hval)
    rw [hdone'.kept i hzero hreg hvalue hidle]
    by_cases hpending : i.val = (r LoadReg).toNat
    · rw [hdone.loaded i hzero hreg hvalue hpending, h.loaded i hzero hi hpending]
    · rw [hdone.kept i hzero hreg hvalue hpending, h.kept i hzero hi hpending]

theorem Resumed.setBadVAddr (h : Resumed r r') (badVAddr : BitVec 32) :
    Resumed (Function.update r BadVAddrReg badVAddr) (Function.update r' BadVAddrReg badVAddr) := by
  have hother : ∀ (r : Registers) (i : Fin 40), i ≠ BadVAddrReg →
      Function.update r BadVAddrReg badVAddr i = r i := fun r i hi => Function.update_of_ne hi _ _
  have hreg := hother r LoadReg (by decide)
  have hvalue := hother r LoadValueReg (by decide)
  refine ⟨by rw [hreg]; exact h.pending, (hother r' LoadReg (by decide)).trans h.loadReg, ?_, ?_⟩
  · intro i hzero hi
    rw [hreg, hvalue, hother r' i (ne_of_val_lt hi (by decide))]
    exact h.loaded i hzero hi
  · intro i hzero hi
    rw [hreg, hother r i (ne_of_val_lt hi (by decide)), hother r' i (ne_of_val_lt hi (by decide))]
    exact h.kept i hzero hi

theorem Resumed.idle (h : Resumed r r') : (r' LoadReg).toNat < 40 := by
  rw [h.loadReg]
  decide

theorem raiseException_same (halike : Alike m m') (h : Resumed m.registers m'.registers) :
    SameEnd (m.raiseException which badVAddr) (m'.raiseException which badVAddr) := by
  have hbad := h.setBadVAddr badVAddr
  obtain ⟨r₁, hr₁, hdone⟩ := delayedLoad_ok hbad.pending 0 0
  obtain ⟨r₁', hr₁', hdone'⟩ := delayedLoad_ok hbad.idle 0 0
  unfold Machine.raiseException
  rw [hr₁, hr₁']
  refine ⟨rfl, rfl, ?_, ?_, ?_, ?_⟩
  · intro i hi
    exact hbad.load_eq hdone hdone' (by omega)
  · exact hdone'.loadReg.trans hdone.loadReg.symm
  · exact fun _ => hdone'.loadValue.trans hdone.loadValue.symm
  · exact ⟨halike.mainMemory, halike.pageTableSize, halike.pageTable⟩

theorem finish_same {n v v' pcAfter : BitVec 32} (halike : Alike m m')
    (h : Resumed m.registers m'.registers) (hlost : n ≠ 0 → v' = v) :
    SameEnd (m.finish n v pcAfter) (m'.finish n v' pcAfter) := by
  obtain ⟨r₁, hr₁, hdone⟩ := delayedLoad_ok h.pending n v
  obtain ⟨r₁', hr₁', hdone'⟩ := delayedLoad_ok h.idle n v'
  have heq : ∀ i : Fin 40, i.val < 37 → r₁' i = r₁ i := fun i hi => h.load_eq hdone hdone' hi
  unfold Machine.finish
  rw [hr₁, hr₁']
  refine ⟨?_, ?_, ?_, ?_⟩
  · intro i hi
    simp only [Function.update_apply]
    rw [heq i (by omega), heq PCReg (by decide), heq NextPCReg (by decide)]
  · exact hdone'.loadReg.trans hdone.loadReg.symm
  · intro hn
    refine hdone'.loadValue.trans ((hlost ?_).trans hdone.loadValue.symm)
    exact fun hzero => hn (hdone.loadReg.trans hzero)
  · exact ⟨halike.mainMemory, halike.pageTableSize, halike.pageTable⟩

theorem assign_of_notMem {ws : List (Fin 40 × BitVec 32)} {i : Fin 40} (h : i ∉ ws.map Prod.fst) :
    (m.assign ws).registers i = m.registers i := by
  unfold Machine.assign
  induction ws generalizing m with
  | nil => rfl
  | cons w ws ih =>
    rw [List.map_cons, List.mem_cons, not_or] at h
    have hstep := ih (m := { m with registers := Function.update m.registers w.1 w.2 }) h.2
    exact hstep.trans (Function.update_of_ne h.1 _ _)

theorem assign_congr {i : Fin 40} (h : m'.registers i = m.registers i)
    (ws : List (Fin 40 × BitVec 32)) : (m'.assign ws).registers i = (m.assign ws).registers i := by
  unfold Machine.assign
  induction ws generalizing m m' with
  | nil => exact h
  | cons w ws ih =>
    refine @ih { m with registers := Function.update m.registers w.1 w.2 }
      { m' with registers := Function.update m'.registers w.1 w.2 } ?_
    simp only [Function.update_apply, h]

/-- Assignments that leave the register of the pending load alone. -/
theorem Resumed.assign (h : Resumed m.registers m'.registers) {ws : List (Fin 40 × BitVec 32)}
    (hlt : ∀ i ∈ ws.map Prod.fst, i.val < 34)
    (hspares : ∀ i : Fin 40, i ≠ 0 → i.val = (m.registers LoadReg).toNat → i ∉ ws.map Prod.fst) :
    Resumed (m.assign ws).registers (m'.assign ws).registers := by
  have hreg : LoadReg ∉ ws.map Prod.fst := fun hmem => absurd (hlt _ hmem) (by decide)
  have hvalue : LoadValueReg ∉ ws.map Prod.fst := fun hmem => absurd (hlt _ hmem) (by decide)
  refine ⟨?_, ?_, ?_, ?_⟩
  · rw [assign_of_notMem hreg]
    exact h.pending
  · rw [assign_of_notMem hreg]
    exact h.loadReg
  · intro i hzero hi hpending
    rw [assign_of_notMem hreg] at hpending
    rw [assign_of_notMem (hspares i hzero hpending), assign_of_notMem hvalue]
    exact h.loaded i hzero hi hpending
  · intro i hzero hi hpending
    rw [assign_of_notMem hreg] at hpending
    exact assign_congr (h.kept i hzero hi hpending) ws

theorem reading_same {next next' : BitVec 32 → Machine → Except Fault Ending}
    (halike : Alike m m') (h : Resumed m.registers m'.registers)
    (hnext : ∀ value m₁ m₁', m.readMem addr size = .ok (.ok (value, m₁)) → Alike m₁ m₁' →
      m₁.registers = m.registers → m₁'.registers = m'.registers →
      SameEnd (next value m₁) (next' value m₁')) :
    SameEnd (m.reading addr size next) (m'.reading addr size next') := by
  unfold Machine.reading
  obtain ⟨fault, hread, hread'⟩ | ⟨which, hread, hread'⟩ |
      ⟨value, m₁, m₁', hread, hread', halike₁⟩ :=
    halike.readMem addr size
  · rw [hread, hread']
    rfl
  · rw [hread, hread']
    exact raiseException_same halike h
  · rw [hread, hread']
    exact hnext value m₁ m₁' hread halike₁ (readMem_frame hread).2 (readMem_frame hread').2

theorem writing_same {next next' : Machine → Except Fault Ending} (halike : Alike m m')
    (h : Resumed m.registers m'.registers)
    (hnext : ∀ m₁ m₁', Alike m₁ m₁' → m₁.registers = m.registers → m₁'.registers = m'.registers →
      SameEnd (next m₁) (next' m₁')) :
    SameEnd (m.writing addr size value next) (m'.writing addr size value next') := by
  unfold Machine.writing
  obtain ⟨fault, hwrite, hwrite'⟩ | ⟨which, hwrite, hwrite'⟩ |
      ⟨m₁, m₁', hwrite, hwrite', halike₁⟩ :=
    halike.writeMem addr size value
  · rw [hwrite, hwrite']
    rfl
  · rw [hwrite, hwrite']
    exact raiseException_same halike h
  · rw [hwrite, hwrite']
    exact hnext m₁ m₁' halike₁ (writeMem_registers hwrite) (writeMem_registers hwrite')

/-- Similar executions end in the same way when the assignments leave the register of the pending
load alone. -/
theorem perform_same {x x' : Execution} (halike : Alike m m')
    (h : Resumed m.registers m'.registers) (hx : Similar x x')
    (hnextPC : m'.registers NextPCReg = m.registers NextPCReg)
    (hassign : ∀ ws pcAfter, x = .assign ws pcAfter → (∀ i ∈ ws.map Prod.fst, i.val < 34) ∧
      ∀ i : Fin 40, i ≠ 0 → i.val = (m.registers LoadReg).toNat → i ∉ ws.map Prod.fst) :
    SameEnd (m.perform x) (m'.perform x') := by
  -- after its accesses to memory an instruction goes on to the next one
  have hfinish : ∀ (n v v' : BitVec 32) (m₁ m₁' : Machine), Alike m₁ m₁' →
      m₁.registers = m.registers → m₁'.registers = m'.registers → (n ≠ 0 → v' = v) →
      SameEnd (m₁.finish n v (m₁.registers NextPCReg + 4))
        (m₁'.finish n v' (m₁'.registers NextPCReg + 4)) := by
    intro n v v' m₁ m₁' halike₁ hregs hregs' hlost
    rw [show m₁'.registers NextPCReg = m₁.registers NextPCReg by rw [hregs, hregs', hnextPC]]
    exact finish_same halike₁ (by rw [hregs, hregs']; exact h) hlost
  cases hx with
  | lost addr size value value' =>
    refine reading_same halike h fun _ m₁ m₁' _ halike₁ hregs hregs' => ?_
    exact hfinish _ _ _ m₁ m₁' halike₁ hregs hregs' fun hne => absurd rfl hne
  | refl x =>
    cases x with
    | stop fault => rfl
    | raise which badVAddr => exact raiseException_same halike h
    | assign ws pcAfter =>
      obtain ⟨hlt, hspares⟩ := hassign ws pcAfter rfl
      exact finish_same ⟨halike.mainMemory, halike.pageTableSize, halike.pageTable⟩
        (h.assign hlt hspares) fun _ => rfl
    | load addr size rt nextLoadValue =>
      refine reading_same halike h fun _ m₁ m₁' _ halike₁ hregs hregs' => ?_
      exact hfinish _ _ _ m₁ m₁' halike₁ hregs hregs' fun _ => rfl
    | store addr size value =>
      refine writing_same halike h fun m₁ m₁' halike₁ hregs hregs' => ?_
      exact hfinish _ _ _ m₁ m₁' halike₁ hregs hregs' fun _ => rfl
    | merge addr value =>
      refine reading_same halike h fun _ m₁ m₁' _ halike₁ hregs hregs' => ?_
      refine writing_same halike₁ (by rw [hregs, hregs']; exact h) ?_
      intro m₂ m₂' halike₂ hregs₂ hregs₂'
      exact hfinish _ _ _ m₂ m₂' halike₂ (hregs₂.trans hregs) (hregs₂'.trans hregs') fun _ => rfl

/-- The instruction that `OneInstruction` finds at the program counter. -/
def Machine.Fetches (m : Machine) (instr : Instruction) : Prop :=
  ∃ raw m₁, m.readMem (m.registers PCReg) 4 = .ok (.ok (raw, m₁)) ∧ Instruction.decode raw = instr

/-- The instruction neither reads nor writes the register of the pending load, if a load is
pending. -/
def Machine.Spares (m : Machine) : Prop :=
  ∀ i : Fin 40, i ≠ 0 → i.val = (m.registers LoadReg).toNat →
    i ≠ PCReg ∧ ∀ instr, m.Fetches instr → i ∉ instr.reads ∧ i ∉ instr.writes

/-- The register 0 holds 0 if the instruction reads it. -/
def Machine.ZeroIsZero (m : Machine) : Prop :=
  m.registers 0 = 0 ∨ ∀ instr, m.Fetches instr → (0 : Fin 40) ∉ instr.reads

/-- `LWR` starts from the register itself: the pending load is for another one. -/
theorem Resumed.merged_eq (h : Resumed r r') {rt : Fin 32} (hrt : rt ≠ 0)
    (hne : (gpr rt).val ≠ (r LoadReg).toNat) : merged r' rt = merged r rt := by
  have hgpr := gpr_ne_zero hrt
  have hval : (BitVec.ofNat 32 rt.val).toNat = (gpr rt).val := by
    have := rt.isLt
    simp only [BitVec.toNat_ofNat, gpr, Fin.val_castLE]
    omega
  have hpending : r LoadReg ≠ BitVec.ofNat 32 rt := by
    intro heq
    exact hne (by rw [heq, hval])
  have hidle : r' LoadReg ≠ BitVec.ofNat 32 rt := by
    intro heq
    rw [h.loadReg] at heq
    refine hgpr (Fin.ext ?_)
    rw [← hval, ← heq]
    rfl
  unfold merged
  rw [if_neg hpending, if_neg hidle]
  exact h.kept (gpr rt) hgpr (by have := gpr_lt rt; omega) hne

/-- The instruction runs from the registers that an exception has left as it would have run from the
registers before. -/
theorem oneInstruction_same (halike : Alike m m') (h : Resumed m.registers m'.registers)
    (hzero : m'.registers 0 = 0) (hspares : m.Spares) (hholds : m.ZeroIsZero) :
    SameEnd m.oneInstruction m'.oneInstruction := by
  have hpc : m'.registers PCReg = m.registers PCReg :=
    h.kept PCReg (by decide) (by decide) fun hval => (hspares PCReg (by decide) hval).1 rfl
  unfold Machine.oneInstruction
  rw [hpc]
  refine reading_same halike h fun raw m₁ m₁' hread halike₁ hregs hregs' => ?_
  have hfetch : m.Fetches (Instruction.decode raw) := ⟨raw, m₁, hread, rfl⟩
  have hreads : ∀ i ∈ (Instruction.decode raw).reads, m'.registers i = m.registers i := by
    intro i hi
    by_cases hi0 : i = 0
    · subst hi0
      rcases hholds with hholds | hholds
      · rw [hzero, hholds]
      · exact absurd hi (hholds _ hfetch)
    · refine h.kept i hi0 (by have := lt_of_mem_reads hi; omega) fun hval => ?_
      exact ((hspares i hi0 hval).2 _ hfetch).1 hi
  rw [hregs, hregs']
  refine perform_same halike₁ (by rw [hregs, hregs']; exact h) ?_ ?_ ?_
  · refine execute_similar hreads fun hop hrt => h.merged_eq hrt fun hval => ?_
    -- `LWR` reads the register that it loads
    have hmem : gpr (Instruction.decode raw).rt ∈ (Instruction.decode raw).reads := by
      simp [Instruction.reads, hop]
    exact ((hspares _ (gpr_ne_zero hrt) hval).2 _ hfetch).1 hmem
  · rw [hregs, hregs']
    exact hreads NextPCReg (by simp [Instruction.reads])
  · intro ws pcAfter hx
    have hsubset := assign_subset_writes hx
    refine ⟨fun i hi => lt_of_mem_writes (hsubset hi), fun i hi0 hval hi => ?_⟩
    rw [hregs] at hval
    exact ((hspares i hi0 hval).2 _ hfetch).2 (hsubset hi)

/-- The memory and the page table that the kernel leaves when it has resolved a page fault. -/
def Machine.resolve (m : Machine) (mainMemory : ℕ → Byte) (pageTable : ℕ → TranslationEntry)
    (pageTableSize : ℕ) : Machine :=
  { m with
    mainMemory := mainMemory
    pageTable := pageTable
    pageTableSize := pageTableSize }

/-- The instruction that `m` is about to run has ended in page faults, one or more of them, each
but the last resolved and the instruction run again; the last handler finds `m'`. -/
inductive Faulted (m : Machine) : Machine → Prop where
  | first {m' : Machine} {badVAddr : BitVec 32}
      (h : m.oneInstruction = .ok (.exception .pageFault badVAddr m')) : Faulted m m'
  | again {m' m'' : Machine} {badVAddr : BitVec 32} (hfaulted : Faulted m m')
      (mainMemory : ℕ → Byte) (pageTable : ℕ → TranslationEntry) (pageTableSize : ℕ)
      (h : (m'.resolve mainMemory pageTable pageTableSize).oneInstruction =
        .ok (.exception .pageFault badVAddr m'')) : Faulted m m''

theorem Faulted.resumed (h : Faulted m m') :
    Resumed m.registers m'.registers ∧ m'.registers 0 = 0 := by
  induction h with
  | first h =>
    have hentered := oneInstruction_entered h
    exact ⟨hentered.resumed, hentered.zero⟩
  | again hfaulted mainMemory pageTable pageTableSize h ih =>
    have hentered := oneInstruction_entered h
    exact ⟨ih.1.trans hentered.resumed, hentered.zero⟩

/-- Exceptions are precise: the handler finds the machine as it was before the instruction, up to
the pending load and the marks of the pages. So when a page fault is resolved, the instruction ends
as it would have ended with the page resident, if it does not touch the register of the pending
load. -/
theorem exceptions_precise (m : Machine) :
    (∀ which badVAddr m', m.oneInstruction = .ok (.exception which badVAddr m') →
      Entered m m' badVAddr) ∧
    ∀ m', Faulted m m' →
      ∀ (mainMemory : ℕ → Byte) (pageTable pageTable' : ℕ → TranslationEntry) (pageTableSize : ℕ),
        OnlyMarked pageTable pageTable' →
        (m.resolve mainMemory pageTable pageTableSize).Spares →
        (m.resolve mainMemory pageTable pageTableSize).ZeroIsZero →
        SameEnd (m.resolve mainMemory pageTable pageTableSize).oneInstruction
          (m'.resolve mainMemory pageTable' pageTableSize).oneInstruction := by
  refine ⟨fun which badVAddr m' h => oneInstruction_entered h, ?_⟩
  intro m' hfaulted mainMemory pageTable pageTable' pageTableSize hmarked hspares hholds
  obtain ⟨hresumed, hzero⟩ := hfaulted.resumed
  exact oneInstruction_same ⟨rfl, rfl, hmarked⟩ hresumed hzero hspares hholds

/-- One page in the frame 0. -/
def onePage (valid : Bool) : ℕ → TranslationEntry := fun _ =>
  { virtualPage := 0
    physicalPage := 0
    valid := valid
    readOnly := false
    use := false
    dirty := false }

/-- A load of 7 into the register 5 is pending, and `zero` stands in the register 0. -/
def pendingFive (zero : BitVec 32) : Registers := fun i =>
  if i = 0 then zero
  else if i = NextPCReg then 4
  else if i = LoadReg then 5
  else if i = LoadValueReg then 7
  else 0

/-- The page holds `ADDIU r1,r0,0`. -/
def addiuZero (a : ℕ) : Byte := if a = 2 then 0x01 else if a = 3 then 0x24 else 0

/-- A machine that has to fetch its page. -/
def absent (zero : BitVec 32) : Machine where
  registers := pendingFive zero
  mainMemory := fun _ => 0
  pageTable := onePage false
  pageTableSize := 1

/-- The instruction that the page holds has nothing to do with the register 5. -/
theorem absent_spares (zero : BitVec 32) :
    ((absent zero).resolve addiuZero (onePage true) 1).Spares := by
  intro i hi0 hval
  have hi : i = 5 := Fin.ext hval
  subst hi
  refine ⟨by decide, ?_⟩
  rintro instr ⟨raw, m₁, hread, rfl⟩
  have hraw : raw = 0x24010000#32 := by
    have ht : translate numPhysPages (onePage true) 1 0 4 false =
        .ok (.physical 0 { onePage true 0 with use := true }) := rfl
    have hl : load addiuZero 0 4 = .ok 0x24010000#32 := rfl
    have hword := readMem_eq (m := (absent zero).resolve addiuZero (onePage true) 1) ht hl
    have heq := hword.symm.trans hread
    cases heq
    rfl
  subst hraw
  decide

/-- The handler finds the register 0 cleared: an instruction that has read an 8 there reads 0 when
it is run again, though it does not touch the register of the pending load. -/
theorem rerun_reads_zero :
    ∃ m', (absent 8).oneInstruction = .ok (.exception .pageFault 0 m') ∧
      ((absent 8).resolve addiuZero (onePage true) 1).Spares ∧
      ¬ SameEnd ((absent 8).resolve addiuZero (onePage true) 1).oneInstruction
        (m'.resolve addiuZero (onePage true) 1).oneInstruction := by
  refine ⟨_, rfl, absent_spares 8, ?_⟩
  intro hsame
  have hregister : Same _ _ := hsame
  exact absurd (hregister.registers 1 (by decide)) (by decide)

/-- With 0 in the register 0 both runs give the register 1 its 0. -/
theorem exceptions_precise_addiu :
    ∃ m', (absent 0).oneInstruction = .ok (.exception .pageFault 0 m') ∧
      Entered (absent 0) m' 0 ∧
      SameEnd ((absent 0).resolve addiuZero (onePage true) 1).oneInstruction
        (m'.resolve addiuZero (onePage true) 1).oneInstruction := by
  have hfault : ∃ m', (absent 0).oneInstruction = .ok (.exception .pageFault 0 m') := ⟨_, rfl⟩
  obtain ⟨m', hfault⟩ := hfault
  have hprecise := exceptions_precise (absent 0)
  refine ⟨m', hfault, hprecise.1 .pageFault 0 m' hfault, ?_⟩
  exact hprecise.2 m' (.first hfault) addiuZero (onePage true) (onePage true) 1
    (OnlyMarked.refl _) (absent_spares 0) (.inl rfl)

end Mips

end Nachos
