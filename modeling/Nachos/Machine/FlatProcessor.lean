import Nachos.Machine.PreciseExceptions

/-!
# Flat processors

A processor with a memory of its own, an array of bytes, and without delayed loads: a load gives its
register the value at once. `OneInstruction` does the same, whatever brings the pages in, for an
instruction that has nothing to do with the register of the load before it.
-/

namespace Nachos

namespace Mips

/-! ## The processor -/

/-- A memory of `size` bytes has an address error for a request of `n` bytes. -/
def Denied (size : ℕ) (addr : BitVec 32) (n : ℕ) : Prop := misaligned addr n ∨ size ≤ addr.toNat

instance (size : ℕ) (addr : BitVec 32) (n : ℕ) : Decidable (Denied size addr n) :=
  inferInstanceAs (Decidable (_ ∨ _))

structure Processor where
  registers : Registers
  memory : ℕ → Byte
  size : ℕ
  /-- The register that the last instruction has loaded, or 0. -/
  loaded : Fin 32

namespace Processor

inductive Ending where
  | finished (q : Processor)
  | exception (which : ExceptionType)

/-- `next` gets the word that is read. -/
def reading (q : Processor) (addr : BitVec 32) (size : ℕ) (next : BitVec 32 → Except Fault Ending) :
    Except Fault Ending :=
  if Denied q.size addr size then
    .ok (.exception .addressError)
  else
    match load q.memory addr.toNat size with
    | .error fault => .error fault
    | .ok value => next value

def writing (q : Processor) (addr : BitVec 32) (size : ℕ) (value : BitVec 32)
    (next : Processor → Except Fault Ending) : Except Fault Ending :=
  if Denied q.size addr size then
    .ok (.exception .addressError)
  else
    match store q.memory addr.toNat value size with
    | .error fault => .error fault
    | .ok memory => next { q with memory := memory }

def assign (q : Processor) (writes : List (Fin 40 × BitVec 32)) : Processor :=
  { q with registers := writes.foldl (fun r w => Function.update r w.1 w.2) q.registers }

/-- The register `rt` is loaded, and the program counters advance. -/
def finish (q : Processor) (rt : Fin 32) (value pcAfter : BitVec 32) : Processor :=
  let r := Function.update (Function.update q.registers (gpr rt) value) 0 0
  let r := Function.update r PrevPCReg (r PCReg)
  let r := Function.update r PCReg (r NextPCReg)
  { q with
    registers := Function.update r NextPCReg pcAfter
    loaded := rt }

def perform (q : Processor) : Execution → Except Fault Ending
  | .stop fault => .error fault
  | .raise which _ => .ok (.exception which)
  | .assign writes pcAfter => .ok (.finished ((q.assign writes).finish 0 0 pcAfter))
  | .load addr size rt nextLoadValue => q.reading addr size fun value =>
      .ok (.finished (q.finish rt (nextLoadValue value) (q.registers NextPCReg + 4)))
  | .store addr size value => q.writing addr size value fun q' =>
      .ok (.finished (q'.finish 0 0 (q'.registers NextPCReg + 4)))
  | .merge addr value => q.reading addr 4 fun old => q.writing addr 4 (value old) fun q' =>
      .ok (.finished (q'.finish 0 0 (q'.registers NextPCReg + 4)))

def oneInstruction (q : Processor) : Except Fault Ending :=
  q.reading (q.registers PCReg) 4 fun raw =>
    q.perform ((Instruction.decode raw).execute q.registers)

/-- The next instruction has nothing to do with the register that the last one has loaded. -/
def Careful (q : Processor) : Prop :=
  q.loaded ≠ 0 → ∀ raw, load q.memory (q.registers PCReg).toNat 4 = .ok raw →
    gpr q.loaded ∉ (Instruction.decode raw).reads ∧ gpr q.loaded ∉ (Instruction.decode raw).writes

end Processor

/-! ## Memories -/

/-- A request of `m` has ended in a page fault, for a page that is not valid. -/
def Machine.Missing (m : Machine) (addr : BitVec 32) : Prop :=
  vpnOf addr < m.pageTableSize ∧ (m.pageTable (vpnOf addr)).valid = false

/-- The machines that `B` relates to a flat memory answer requests as it does, or with a page
fault. -/
structure Backing (B : Machine → (ℕ → Byte) → Prop) (size : ℕ) : Prop where
  registers : ∀ {m mem} (r : Registers), B m mem → B { m with registers := r } mem
  read : ∀ {m mem n} (addr : BitVec 32), B m mem → Sized n →
    Denied size addr n ∧ m.readMem addr n = .ok (.error .addressError) ∨
      m.readMem addr n = .ok (.error .pageFault) ∨
      ¬ Denied size addr n ∧ ∃ value m',
        m.readMem addr n = .ok (.ok (value, m')) ∧ load mem addr.toNat n = .ok value ∧ B m' mem
  write : ∀ {m mem n} (addr value : BitVec 32), B m mem → Sized n →
    Denied size addr n ∧
        m.writeMem addr n value = .ok (.error .addressError) ∨
      m.writeMem addr n value = .ok (.error .pageFault) ∨
      ¬ Denied size addr n ∧ ∃ mem' m',
        m.writeMem addr n value = .ok (.ok m') ∧ store mem addr.toNat value n = .ok mem' ∧ B m' mem'

theorem missing_of_readMem {m : Machine} {addr : BitVec 32} {size : ℕ}
    (h : m.readMem addr size = .ok (.error .pageFault)) : m.Missing addr := by
  unfold Machine.readMem at h
  split at h
  · cases h
  · rename_i which ht
    cases h
    exact of_translate_pageFault ht
  · split at h <;> cases h

theorem missing_of_writeMem {m : Machine} {addr value : BitVec 32} {size : ℕ}
    (h : m.writeMem addr size value = .ok (.error .pageFault)) : m.Missing addr := by
  unfold Machine.writeMem at h
  split at h
  · cases h
  · rename_i which ht
    cases h
    exact of_translate_pageFault ht
  · split at h <;> cases h

/-- The requests of an instruction have the sizes of `ReadMem` and `WriteMem`. -/
def Execution.Sized : Execution → Prop
  | .load _ size _ _ => Nachos.Sized size
  | .store _ size _ => Nachos.Sized size
  | _ => True

theorem execute_sized (instr : Instruction) (r : Registers) : (instr.execute r).Sized := by
  have hone : Nachos.Sized 1 := .inl rfl
  have htwo : Nachos.Sized 2 := .inr (.inl rfl)
  have hfour : Nachos.Sized 4 := .inr (.inr rfl)
  rcases instr with ⟨op, rs, rt, rd, extra⟩
  cases op <;> simp only [Instruction.execute] <;> (try split) <;> (try split) <;>
    first | exact trivial | exact hone | exact htwo | exact hfour

variable {B : Machine → (ℕ → Byte) → Prop} {size n : ℕ} {mem : ℕ → Byte} {m m' : Machine}
  {q : Processor} {addr value badVAddr : BitVec 32} {which : ExceptionType}

/-! ## Exceptions -/

/-- Where the run of an instruction ends in an exception, the memory is as it was, and the page of a
page fault is missing. -/
def Undone (B : Machine → (ℕ → Byte) → Prop) (mem : ℕ → Byte) (run : Except Fault Ending) : Prop :=
  ∀ which badVAddr m', run = .ok (.exception which badVAddr m') →
    B m' mem ∧ (which = .pageFault → m'.Missing badVAddr)

theorem finish_undone (m : Machine) (nextLoadReg nextLoadValue pcAfter : BitVec 32) :
    Undone B mem (m.finish nextLoadReg nextLoadValue pcAfter) :=
  fun _ _ _ h => absurd h finish_ne_exception

theorem Backing.raiseException (hB : Backing B size) (h : B m mem)
    (hmissing : which = .pageFault → m.Missing badVAddr) :
    Undone B mem (m.raiseException which badVAddr) := by
  intro which' badVAddr' m' hraise
  unfold Machine.raiseException at hraise
  split at hraise
  · cases hraise
  · cases hraise
    exact ⟨hB.registers _ h, hmissing⟩

theorem Backing.reading_undone (hB : Backing B size) (h : B m mem) (hsize : Sized n)
    {next : BitVec 32 → Machine → Except Fault Ending}
    (hnext : ∀ value m', B m' mem → Undone B mem (next value m')) :
    Undone B mem (m.reading addr n next) := by
  unfold Machine.reading
  obtain ⟨-, hread⟩ | hread | ⟨-, value, m₁, hread, -, h₁⟩ := hB.read addr h hsize
  · rw [hread]
    exact hB.raiseException h fun hwhich => absurd hwhich (by decide)
  · rw [hread]
    exact hB.raiseException h fun _ => missing_of_readMem hread
  · rw [hread]
    exact hnext value m₁ h₁

/-- Nothing raises an exception after a write. -/
theorem Backing.writing_undone (hB : Backing B size) (h : B m mem) (hsize : Sized n)
    {nextLoadReg nextLoadValue : BitVec 32} {pcAfter : Machine → BitVec 32} :
    Undone B mem
      (m.writing addr n value fun m' => m'.finish nextLoadReg nextLoadValue (pcAfter m')) := by
  unfold Machine.writing
  obtain ⟨-, hwrite⟩ | hwrite | ⟨-, mem', m₁, hwrite, -, -⟩ := hB.write addr value h hsize
  · rw [hwrite]
    exact hB.raiseException h fun hwhich => absurd hwhich (by decide)
  · rw [hwrite]
    exact hB.raiseException h fun _ => missing_of_writeMem hwrite
  · rw [hwrite]
    exact finish_undone m₁ _ _ _

theorem Backing.perform_undone (hB : Backing B size) (h : B m mem) {x : Execution} (hx : x.Sized)
    (hraise : ∀ badVAddr, x ≠ .raise .pageFault badVAddr) : Undone B mem (m.perform x) := by
  cases x with
  | stop fault => exact fun _ _ _ h => by cases h
  | raise which badVAddr =>
      refine hB.raiseException h fun hwhich => ?_
      exact absurd (by rw [hwhich]) (hraise badVAddr)
  | assign writes pcAfter => exact finish_undone _ _ _ _
  | load addr size rt nextLoadValue =>
      exact hB.reading_undone h hx fun _ m₁ _ => finish_undone m₁ _ _ _
  | store addr size value => exact hB.writing_undone h hx
  | merge addr value =>
      exact hB.reading_undone h (.inr (.inr rfl)) fun _ _ h₁ =>
        hB.writing_undone h₁ (.inr (.inr rfl))

theorem execute_ne_pageFault (instr : Instruction) (r : Registers) (badVAddr : BitVec 32) :
    instr.execute r ≠ .raise .pageFault badVAddr := by
  rcases instr with ⟨op, rs, rt, rd, extra⟩
  cases op <;> simp only [Instruction.execute] <;> (try split) <;> (try split) <;>
    (intro h; cases h)

theorem Backing.oneInstruction_undone (hB : Backing B size) (h : B m mem) :
    Undone B mem m.oneInstruction :=
  hB.reading_undone h (.inr (.inr rfl)) fun _ _ h₁ =>
    hB.perform_undone h₁ (execute_sized _ _) (execute_ne_pageFault _ _)

/-! ## Registers -/

/-- The registers of the processor are those of the machine, with its pending load completed. -/
structure Settles (r : Registers) (q : Processor) : Prop where
  resumed : Resumed r q.registers
  zero : r 0 = 0
  zeroSettled : q.registers 0 = 0
  pending : (r LoadReg).toNat = 0 ∨ (r LoadReg).toNat = q.loaded.val

variable {r r₁ r' : Registers}

theorem Settles.general (h : Settles r q) : (r LoadReg).toNat < 32 := by
  rcases h.pending with hpending | hpending
  · omega
  · rw [hpending]
    exact q.loaded.isLt

/-- `DelayedLoad` gives every register what it has in the processor. -/
theorem Resumed.of_done {nextReg nextValue : BitVec 32} (h : Resumed r r')
    (hdone : LoadDone r r₁ nextReg nextValue) {i : Fin 40} (hzero : i ≠ 0) (hi : i.val < 37) :
    r₁ i = r' i := by
  have hreg : i ≠ LoadReg := ne_of_val_lt hi (by decide)
  have hvalue : i ≠ LoadValueReg := ne_of_val_lt hi (by decide)
  by_cases hpending : i.val = (r LoadReg).toNat
  · rw [hdone.loaded i hzero hreg hvalue hpending, h.loaded i hzero hi hpending]
  · rw [hdone.kept i hzero hreg hvalue hpending, h.kept i hzero hi hpending]

/-- The handler of an exception finds no load pending. -/
theorem Settles.entered (h : Settles m.registers q) (hentered : Entered m m' badVAddr) :
    Settles m'.registers q := by
  have hresumed := hentered.resumed
  refine ⟨⟨?_, h.resumed.loadReg, ?_, ?_⟩, hentered.zero, h.zeroSettled, ?_⟩
  · rw [hentered.loadReg]
    decide
  · intro i hzero _ hval
    rw [hentered.loadReg] at hval
    exact absurd (Fin.ext hval) hzero
  · intro i hzero hi _
    by_cases hpending : i.val = (m.registers LoadReg).toNat
    · rw [hresumed.loaded i hzero hi hpending, h.resumed.loaded i hzero hi hpending]
    · rw [hresumed.kept i hzero hi hpending, h.resumed.kept i hzero hi hpending]
  · rw [hentered.loadReg]
    exact .inl rfl

theorem finish_registers (q : Processor) (rt : Fin 32) (value pcAfter : BitVec 32) :
    (q.finish rt value pcAfter).registers PrevPCReg = q.registers PCReg ∧
      (q.finish rt value pcAfter).registers PCReg = q.registers NextPCReg ∧
      (q.finish rt value pcAfter).registers NextPCReg = pcAfter ∧
      ∀ i, i ≠ PrevPCReg → i ≠ PCReg → i ≠ NextPCReg → (q.finish rt value pcAfter).registers i =
        Function.update (Function.update q.registers (gpr rt) value) 0 0 i := by
  have hbase : ∀ i : Fin 40, 32 ≤ i.val →
      Function.update (Function.update q.registers (gpr rt) value) 0 0 i = q.registers i := by
    intro i hi
    have hne : i ≠ gpr rt := fun heq => by
      have := gpr_lt rt
      rw [heq] at hi
      omega
    have hzero : i ≠ 0 := fun heq => by
      rw [heq] at hi
      exact absurd hi (by decide)
    rw [Function.update_of_ne hzero, Function.update_of_ne hne]
  refine ⟨?_, ?_, ?_, ?_⟩
  · simp only [Processor.finish]
    rw [Function.update_of_ne (by decide), Function.update_of_ne (by decide), Function.update_self,
      hbase PCReg (by decide)]
  · simp only [Processor.finish]
    rw [Function.update_of_ne (by decide), Function.update_self, Function.update_of_ne (by decide),
      hbase NextPCReg (by decide)]
  · simp only [Processor.finish, Function.update_self]
  · intro i hprev hpc hnext
    simp only [Processor.finish]
    rw [Function.update_of_ne hnext, Function.update_of_ne hpc, Function.update_of_ne hprev]

/-- The pending load is completed, and no other one follows. -/
theorem Settles.done (h : Settles r q) (hdone : LoadDone r r₁ 0 0) : Settles r₁ q := by
  have hsame : ∀ {i : Fin 40}, i ≠ 0 → i.val < 37 → r₁ i = q.registers i := h.resumed.of_done hdone
  refine ⟨⟨?_, h.resumed.loadReg, ?_, ?_⟩, hdone.zero, h.zeroSettled, ?_⟩
  · rw [hdone.loadReg]
    decide
  · intro i hi0 _ hval
    rw [hdone.loadReg] at hval
    exact absurd (Fin.ext hval) hi0
  · exact fun i hi0 hi _ => (hsame hi0 hi).symm
  · rw [hdone.loadReg]
    exact .inl rfl

/-- The kernel writes a register while no load is pending. -/
theorem Settles.update (h : Settles r q) (hidle : r LoadReg = 0) {num : Fin 40} (hzero : num ≠ 0)
    (hnum : num.val < 37) (value : BitVec 32) :
    Settles (Function.update r num value)
      { q with registers := Function.update q.registers num value } := by
  have hload : LoadReg ≠ num := (ne_of_val_lt hnum (by decide)).symm
  have hidle' : Function.update r num value LoadReg = 0 :=
    (Function.update_of_ne hload _ _).trans hidle
  have hne : ∀ {i : Fin 40}, i ≠ 0 → i.val ≠ (0#32).toNat := fun hi0 hval => hi0 (Fin.ext hval)
  refine ⟨⟨?_, ?_, ?_, ?_⟩, ?_, ?_, ?_⟩
  · rw [hidle']
    decide
  · exact (Function.update_of_ne hload _ _).trans h.resumed.loadReg
  · intro i hi0 _ hval
    rw [hidle'] at hval
    exact absurd hval (hne hi0)
  · intro i hi0 hi _
    simp only [Function.update_apply]
    split
    · rfl
    · exact h.resumed.kept i hi0 hi (by rw [hidle]; exact hne hi0)
  · rw [Function.update_of_ne hzero.symm, h.zero]
  · exact (Function.update_of_ne hzero.symm _ _).trans h.zeroSettled
  · rw [hidle']
    exact .inl rfl

/-- The end of an instruction completes the pending load, and the one of the instruction itself is
pending now. -/
theorem Resumed.finish (h : Resumed m.registers q.registers)
    (hlt : (m.registers LoadReg).toNat < 40) (rt : Fin 32) {value value' : BitVec 32}
    (hvalue : rt ≠ 0 → value' = value) (pcAfter : BitVec 32) :
    ∃ m', m.finish (BitVec.ofNat 32 rt) value pcAfter = .ok (.finished m') ∧
      Settles m'.registers (q.finish rt value' pcAfter) ∧
        m' = { m with registers := m'.registers } := by
  obtain ⟨r, hr, hdone⟩ := delayedLoad_ok hlt (BitVec.ofNat 32 rt) value
  have hsame : ∀ {i : Fin 40}, i ≠ 0 → i.val < 37 → r i = q.registers i := h.of_done hdone
  have hrt : (BitVec.ofNat 32 rt.val).toNat = rt.val := by
    have := rt.isLt
    rw [BitVec.toNat_ofNat]
    omega
  obtain ⟨hprev, hpc, hnext, hother⟩ := finish_registers q rt value' pcAfter
  obtain ⟨r', hr'⟩ : ∃ r' : Registers, r' = Function.update (Function.update
    (Function.update r PrevPCReg (r PCReg)) PCReg
    (Function.update r PrevPCReg (r PCReg) NextPCReg)) NextPCReg pcAfter := ⟨_, rfl⟩
  have hkept : ∀ i, i ≠ PrevPCReg → i ≠ PCReg → i ≠ NextPCReg → r' i = r i := by
    intro i hprev hpc hnext
    rw [hr', Function.update_of_ne hnext, Function.update_of_ne hpc, Function.update_of_ne hprev]
  have hload : r' LoadReg = BitVec.ofNat 32 rt :=
    (hkept LoadReg (by decide) (by decide) (by decide)).trans hdone.loadReg
  have hloadValue : r' LoadValueReg = value :=
    (hkept LoadValueReg (by decide) (by decide) (by decide)).trans hdone.loadValue
  have hzero : r' 0 = 0 := (hkept 0 (by decide) (by decide) (by decide)).trans hdone.zero
  refine ⟨{ m with registers := r' }, by rw [Machine.finish, hr, hr'], ?_, rfl⟩
  change Settles r' _
  refine ⟨⟨?_, ?_, ?_, ?_⟩, hzero, ?_, ?_⟩
  · rw [hload, hrt]
    omega
  · rw [hother LoadReg (by decide) (by decide) (by decide), Function.update_of_ne (by decide),
      Function.update_of_ne, h.loadReg]
    intro heq
    exact absurd (heq ▸ gpr_lt rt) (by decide)
  · intro i hi0 _ hval
    rw [hload, hrt] at hval
    have hgpr : i = gpr rt := Fin.ext hval
    have hne : rt ≠ 0 := by
      rintro rfl
      exact hi0 (Fin.ext hval)
    have hlt' := gpr_lt rt
    have hspecial : ∀ k : Fin 40, 32 ≤ k.val → i ≠ k := fun k hk heq => by
      rw [hgpr] at heq
      rw [heq] at hlt'
      omega
    rw [hloadValue, hother i (hspecial _ (by decide)) (hspecial _ (by decide))
      (hspecial _ (by decide)), Function.update_of_ne hi0, hgpr, Function.update_self, hvalue hne]
  · intro i hi0 hi hval
    rw [hload, hrt] at hval
    have hne : i ≠ gpr rt := fun heq => hval (congrArg Fin.val heq)
    by_cases hiprev : i = PrevPCReg
    · rw [hiprev, hprev, hr', Function.update_of_ne (by decide), Function.update_of_ne (by decide),
        Function.update_self, hsame (by decide) (by decide)]
    by_cases hipc : i = PCReg
    · rw [hipc, hpc, hr', Function.update_of_ne (by decide), Function.update_self,
        Function.update_of_ne (by decide), hsame (by decide) (by decide)]
    by_cases hinext : i = NextPCReg
    · rw [hinext, hnext, hr', Function.update_self]
    rw [hother i hiprev hipc hinext, hkept i hiprev hipc hinext, Function.update_of_ne hi0,
      Function.update_of_ne hne, hsame hi0 hi]
  · rw [hother 0 (by decide) (by decide) (by decide), Function.update_self]
  · right
    rw [hload, hrt]
    rfl

/-! ## Instructions -/

/-- The run of an instruction that does not fault ends as on the processor. -/
def Simulates (B : Machine → (ℕ → Byte) → Prop) (size : ℕ) :
    Except Fault Ending → Except Fault Processor.Ending → Prop
  | .error fault, run => run = .error fault
  | .ok (.exception which _ _), run => which = .pageFault ∨ run = .ok (.exception which)
  | .ok (.finished m), run => ∃ q, run = .ok (.finished q) ∧ B m q.memory ∧
      Settles m.registers q ∧ q.size = size

theorem raiseException_ok (hlt : (m.registers LoadReg).toNat < 40) (which : ExceptionType)
    (badVAddr : BitVec 32) :
    ∃ m', m.raiseException which badVAddr = .ok (.exception which badVAddr m') := by
  have hreg : Function.update m.registers BadVAddrReg badVAddr LoadReg = m.registers LoadReg :=
    Function.update_of_ne (by decide) _ _
  obtain ⟨r, hr, -⟩ := delayedLoad_ok (r := Function.update m.registers BadVAddrReg badVAddr)
    (hreg ▸ hlt) 0 0
  exact ⟨_, by rw [Machine.raiseException, hr]⟩

theorem raiseException_simulates (hlt : (m.registers LoadReg).toNat < 40)
    {run : Except Fault Processor.Ending}
    (hrun : which = .pageFault ∨ run = .ok (.exception which)) :
    Simulates B size (m.raiseException which badVAddr) run := by
  obtain ⟨m', hraise⟩ := raiseException_ok hlt which badVAddr
  rw [hraise]
  exact hrun

theorem Backing.reading_simulates (hB : Backing B q.size) (h : B m q.memory) (hsize : Sized n)
    (hlt : (m.registers LoadReg).toNat < 40) {next : BitVec 32 → Machine → Except Fault Ending}
    {next' : BitVec 32 → Except Fault Processor.Ending}
    (hnext : ∀ value m₁, load q.memory addr.toNat n = .ok value → B m₁ q.memory →
      m₁.registers = m.registers → Simulates B q.size (next value m₁) (next' value)) :
    Simulates B q.size (m.reading addr n next) (q.reading addr n next') := by
  unfold Machine.reading Processor.reading
  obtain ⟨hdenies, hread⟩ | hread | ⟨hallows, value, m₁, hread, hload, h₁⟩ :=
    hB.read addr h hsize
  · rw [hread, if_pos hdenies]
    exact raiseException_simulates hlt (.inr rfl)
  · rw [hread]
    exact raiseException_simulates hlt (.inl rfl)
  · rw [hread, if_neg hallows, hload]
    exact hnext value m₁ hload h₁ (readMem_frame hread).2

theorem Backing.writing_simulates (hB : Backing B q.size) (h : B m q.memory) (hsize : Sized n)
    (hlt : (m.registers LoadReg).toNat < 40) {next : Machine → Except Fault Ending}
    {next' : Processor → Except Fault Processor.Ending}
    (hnext : ∀ m₁ memory, B m₁ memory → m₁.registers = m.registers →
      Simulates B q.size (next m₁) (next' { q with memory := memory })) :
    Simulates B q.size (m.writing addr n value next) (q.writing addr n value next') := by
  unfold Machine.writing Processor.writing
  obtain ⟨hdenies, hwrite⟩ | hwrite | ⟨hallows, memory, m₁, hwrite, hstore, h₁⟩ :=
    hB.write addr value h hsize
  · rw [hwrite, if_pos hdenies]
    exact raiseException_simulates hlt (.inr rfl)
  · rw [hwrite]
    exact raiseException_simulates hlt (.inl rfl)
  · rw [hwrite, if_neg hallows, hstore]
    exact hnext m₁ memory h₁ (writeMem_registers hwrite)

/-- The end of an instruction leaves the memory alone. -/
theorem Backing.finish_simulates (hB : Backing B q.size) (h : B m q.memory)
    (hresumed : Resumed m.registers q.registers) (hlt : (m.registers LoadReg).toNat < 40)
    (rt : Fin 32) {value value' : BitVec 32} (hvalue : rt ≠ 0 → value' = value)
    (pcAfter : BitVec 32) :
    Simulates B q.size (m.finish (BitVec.ofNat 32 rt) value pcAfter)
      (.ok (.finished (q.finish rt value' pcAfter))) := by
  obtain ⟨m', hfinish, hsettles, hm'⟩ := hresumed.finish hlt rt hvalue pcAfter
  rw [hfinish]
  refine ⟨_, rfl, ?_, hsettles, rfl⟩
  rw [hm']
  exact hB.registers _ h

theorem Backing.perform_simulates (hB : Backing B q.size) (h : B m q.memory)
    (hresumed : Resumed m.registers q.registers) (hlt : (m.registers LoadReg).toNat < 32)
    {x x' : Execution} (hx : Similar x x') (hsized : x.Sized)
    (hassign : ∀ ws pcAfter, x = .assign ws pcAfter → (∀ i ∈ ws.map Prod.fst, i.val < 34) ∧
      ∀ i : Fin 40, i ≠ 0 → i.val = (m.registers LoadReg).toNat → i ∉ ws.map Prod.fst) :
    Simulates B q.size (m.perform x) (q.perform x') := by
  have hlt' : (m.registers LoadReg).toNat < 40 := by omega
  have hnextPC : m.registers NextPCReg = q.registers NextPCReg := by
    refine (hresumed.kept NextPCReg (by decide) (by decide) fun hval => ?_).symm
    rw [← hval] at hlt
    exact absurd hlt (by decide)
  -- the end of a load, of a store and of a merge
  have hfinish : ∀ (m₁ : Machine) (memory : ℕ → Byte) (rt : Fin 32) (v v' : BitVec 32),
      B m₁ memory → m₁.registers = m.registers → (rt ≠ 0 → v' = v) →
      Simulates B q.size (m₁.finish (BitVec.ofNat 32 rt) v (m₁.registers NextPCReg + 4))
        (.ok (.finished (Processor.finish { q with memory := memory } rt v'
          (q.registers NextPCReg + 4)))) := by
    intro m₁ memory rt v v' h₁ hregs hvalue
    rw [hregs, hnextPC]
    refine Backing.finish_simulates (q := { q with memory := memory }) hB h₁ ?_ ?_ rt hvalue _
    · rw [hregs]
      exact hresumed
    · rw [hregs]
      exact hlt'
  cases hx with
  | lost addr size value value' =>
      refine hB.reading_simulates h hsized hlt' fun v m₁ _ h₁ hregs => ?_
      exact hfinish m₁ q.memory 0 _ _ h₁ hregs fun hne => absurd rfl hne
  | refl x =>
      cases x with
      | stop fault => exact rfl
      | raise which badVAddr => exact raiseException_simulates hlt' (.inr rfl)
      | assign ws pcAfter =>
          obtain ⟨hlt₃₄, hspares⟩ := hassign ws pcAfter rfl
          have hassigned : Resumed (m.assign ws).registers (q.assign ws).registers :=
            @Resumed.assign m { m with registers := q.registers } hresumed ws hlt₃₄ hspares
          have hload : (m.assign ws).registers LoadReg = m.registers LoadReg :=
            assign_of_notMem fun hmem => absurd (hlt₃₄ _ hmem) (by decide)
          exact Backing.finish_simulates (q := q.assign ws) (m := m.assign ws) hB
            (hB.registers _ h) hassigned (by rw [hload]; exact hlt') 0 (fun _ => rfl) pcAfter
      | load addr size rt nextLoadValue =>
          refine hB.reading_simulates h hsized hlt' fun v m₁ _ h₁ hregs => ?_
          exact hfinish m₁ q.memory rt _ _ h₁ hregs fun _ => rfl
      | store addr size value =>
          rw [Machine.perform, Processor.perform]
          refine hB.writing_simulates h hsized hlt' fun m₁ memory h₁ hregs => ?_
          exact hfinish m₁ memory 0 _ _ h₁ hregs fun _ => rfl
      | merge addr value =>
          have hfour : Nachos.Sized 4 := .inr (.inr rfl)
          rw [Machine.perform, Processor.perform]
          refine hB.reading_simulates h hfour hlt' fun v m₁ _ h₁ hregs => ?_
          refine hB.writing_simulates h₁ hfour (by rw [hregs]; exact hlt')
            fun m₂ memory h₂ hregs₂ => ?_
          exact hfinish m₂ memory 0 _ _ h₂ (hregs₂.trans hregs) fun _ => rfl

/-- An instruction that does not fault does what it does on the processor, when it has nothing to do
with the register that has been loaded last. -/
theorem Backing.oneInstruction_simulates (hB : Backing B q.size) (h : B m q.memory)
    (hsettles : Settles m.registers q) (hcareful : q.Careful) :
    Simulates B q.size m.oneInstruction q.oneInstruction := by
  have hresumed := hsettles.resumed
  have hlt := hsettles.general
  have hpc : m.registers PCReg = q.registers PCReg := by
    refine (hresumed.kept PCReg (by decide) (by decide) fun hval => ?_).symm
    rw [← hval] at hlt
    exact absurd hlt (by decide)
  unfold Machine.oneInstruction Processor.oneInstruction
  rw [hpc]
  refine hB.reading_simulates h (.inr (.inr rfl)) (by omega) fun raw m₁ hraw h₁ hregs => ?_
  -- the register of the pending load is the one that the processor has loaded
  have hspares : ∀ i : Fin 40, i ≠ 0 → i.val = (m.registers LoadReg).toNat →
      i ∉ (Instruction.decode raw).reads ∧ i ∉ (Instruction.decode raw).writes := by
    intro i hi0 hval
    rcases hsettles.pending with hpending | hpending
    · exact absurd (Fin.ext (hval.trans hpending)) hi0
    · have hi : i = gpr q.loaded := Fin.ext (hval.trans hpending)
      rw [hi]
      refine hcareful (fun hzero => hi0 ?_) raw hraw
      rw [hi, hzero]
      rfl
  have hreads : ∀ i ∈ (Instruction.decode raw).reads, q.registers i = m₁.registers i := by
    intro i hi
    rw [hregs]
    by_cases hi0 : i = 0
    · rw [hi0, hsettles.zeroSettled, hsettles.zero]
    · refine hresumed.kept i hi0 (by have := lt_of_mem_reads hi; omega) fun hval => ?_
      exact (hspares i hi0 hval).1 hi
  refine Backing.perform_simulates hB h₁ (by rw [hregs]; exact hresumed) (by rw [hregs]; exact hlt)
    (execute_similar hreads fun hop hrt => ?_) (execute_sized _ _) ?_
  · rw [hregs]
    refine hresumed.merged_eq hrt fun hval => ?_
    -- `LWR` reads the register that it loads
    have hmem : gpr (Instruction.decode raw).rt ∈ (Instruction.decode raw).reads := by
      simp [Instruction.reads, hop]
    exact (hspares _ (gpr_ne_zero hrt) hval).1 hmem
  · intro ws pcAfter hx
    have hsubset := assign_subset_writes hx
    refine ⟨fun i hi => lt_of_mem_writes (hsubset hi), fun i hi0 hval hi => ?_⟩
    rw [hregs] at hval
    exact (hspares i hi0 hval).2 (hsubset hi)

end Mips

end Nachos
