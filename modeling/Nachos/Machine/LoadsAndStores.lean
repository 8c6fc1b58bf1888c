import Nachos.Machine.ArithmeticLogic
import Nachos.Machine.Computer
import Nachos.Machine.FlatProcessor

/-!
# Loads and stores

A processor with a flat memory beside a computer, on all instructions: it ends every instruction as
the computer does, unless the simulation deviates from the architecture in it.
-/

namespace Nachos

namespace Mips

open Lib R2000

/-! ## The two machines -/

structure Denotes (q : Processor) (c : Computer) : Prop where
  gpr : ∀ i, q.registers (gpr i) = c.state.gpr i
  hi : q.registers HiReg = c.state.hi
  lo : q.registers LoReg = c.state.lo
  pc : q.registers PCReg = c.state.pc
  nextPc : q.registers NextPCReg = c.state.nextPc
  idle : q.registers LoadReg = 0
  memory : q.memory = c.memory
  size : q.size = c.size

def trapType : Trap → ExceptionType
  | .overflow => .overflow
  | .addressError => .addressError
  | .syscall => .syscall

/-- The run of an instruction ends as on the computer. -/
def Agrees (run : Except Fault Processor.Ending) : Result → Prop
  | .trap which => run = .ok (.exception (trapType which))
  | .next c => ∃ q, run = .ok (.finished q) ∧ Denotes q c

variable {q : Processor} {c : Computer} {s : State} {o : Outcome} {x : Execution}

/-! ## Instructions without memory -/

/-- A machine without pages, in which every request fails. -/
def bare (q : Processor) : Machine where
  registers := q.registers
  mainMemory := fun _ => 0
  pageTable := onePage false
  pageTableSize := 0

theorem bare_translate (q : Processor) (addr : BitVec 32) (size : ℕ) (writing : Bool) :
    translate numPhysPages (bare q).pageTable (bare q).pageTableSize addr size writing =
      .ok (.exception .addressError) := by
  have hnone : (bare q).pageTableSize ≤ vpnOf addr := Nat.zero_le _
  unfold translate
  rw [if_pos hnone, ite_self]

theorem bare_reading (q : Processor) (addr : BitVec 32) (size : ℕ)
    (next : BitVec 32 → Machine → Except Fault Ending) :
    (bare q).reading addr size next = (bare q).raiseException .addressError addr := by
  unfold Machine.reading Machine.readMem
  rw [bare_translate]

theorem bare_writing (q : Processor) (addr : BitVec 32) (size : ℕ) (value : BitVec 32)
    (next : Machine → Except Fault Ending) :
    (bare q).writing addr size value next = (bare q).raiseException .addressError addr := by
  unfold Machine.writing Machine.writeMem
  rw [bare_translate]

theorem not_meets_addressError (m : Machine) (addr : BitVec 32) (s : State) (o : Outcome) :
    ¬ Meets (m.raiseException .addressError addr) s o := by
  unfold Machine.raiseException
  intro h
  cases o with
  | overflow =>
      obtain ⟨m', hm', -⟩ := h
      split at hm' <;> cases hm'
  | next s' =>
      obtain ⟨m', hm', -⟩ := h
      split at hm' <;> cases hm'

/-- The end of an instruction is that on the machine, without the two registers of the load. -/
theorem finish_registers_eq {ws : List (Fin 40 × BitVec 32)} {pcAfter : BitVec 32} {m' : Machine}
    (hidle : q.registers LoadReg = 0) (hws : ∀ i ∈ ws.map Prod.fst, i.val < 34)
    (h : ((bare q).assign ws).finish 0 0 pcAfter = .ok (.finished m')) {i : Fin 40}
    (hi : i.val < 37) :
    ((q.assign ws).finish 0 0 pcAfter).registers i = m'.registers i := by
  have hload : ((bare q).assign ws).registers LoadReg = 0 :=
    (assign_of_notMem fun hmem => absurd (hws _ hmem) (by decide)).trans hidle
  obtain ⟨r, hr, hdone⟩ := delayedLoad_ok (r := ((bare q).assign ws).registers)
    (by rw [hload]; decide) 0 0
  have hbase : ∀ j : Fin 40, j.val < 37 →
      Function.update (Function.update (q.assign ws).registers (Mips.gpr 0) 0) 0 0 j = r j := by
    intro j hj
    by_cases hj0 : j = 0
    · rw [hj0, Function.update_self, hdone.zero]
    · rw [Function.update_of_ne hj0, Function.update_of_ne (show j ≠ Mips.gpr 0 from hj0)]
      refine (hdone.kept j hj0 (ne_of_val_lt hj (by decide)) (ne_of_val_lt hj (by decide)) ?_).symm
      rw [hload]
      exact fun hval => hj0 (Fin.ext hval)
  rw [Machine.finish, hr] at h
  cases h
  simp only [Processor.finish]
  by_cases hnext : i = NextPCReg
  · rw [hnext, Function.update_self, Function.update_self]
  · rw [Function.update_of_ne hnext, Function.update_of_ne hnext]
    by_cases hpc : i = PCReg
    · rw [hpc, Function.update_self, Function.update_self,
        Function.update_of_ne (by decide : NextPCReg ≠ PrevPCReg),
        Function.update_of_ne (by decide : NextPCReg ≠ PrevPCReg), hbase NextPCReg (by decide)]
    · rw [Function.update_of_ne hpc, Function.update_of_ne hpc]
      by_cases hprev : i = PrevPCReg
      · rw [hprev, Function.update_self, Function.update_self, hbase PCReg (by decide)]
      · rw [Function.update_of_ne hprev, Function.update_of_ne hprev, hbase i hi]

/-- An instruction that leaves the memory alone does on the processor what it does on a machine
without pages. -/
theorem Denotes.perform (h : Denotes q c)
    (hws : ∀ ws pcAfter, x = .assign ws pcAfter → ∀ i ∈ ws.map Prod.fst, i.val < 34)
    (hmeets : Meets ((bare q).perform x) c.state o) : Agrees (q.perform x) (c.after o) := by
  cases x with
  | stop fault =>
      cases o with
      | overflow =>
          obtain ⟨m', hm', -⟩ := hmeets
          cases hm'
      | next s' =>
          obtain ⟨m', hm', -⟩ := hmeets
          cases hm'
  | raise which badVAddr =>
      simp only [Machine.perform, Machine.raiseException] at hmeets
      cases o with
      | overflow =>
          obtain ⟨m', hm', -⟩ := hmeets
          split at hm' <;> cases hm'
          rfl
      | next s' =>
          obtain ⟨m', hm', -⟩ := hmeets
          split at hm' <;> cases hm'
  | assign ws pcAfter =>
      cases o with
      | overflow =>
          obtain ⟨m', hm', -⟩ := hmeets
          exact absurd hm' finish_ne_exception
      | next s' =>
          obtain ⟨m', hm', hshows⟩ := hmeets
          have heq : ∀ {i : Fin 40}, i.val < 37 → _ :=
            finish_registers_eq h.idle (hws ws pcAfter rfl) hm'
          refine ⟨_, rfl, fun i => ?_, ?_, ?_, ?_, ?_, ?_, h.memory, h.size⟩
          · rw [heq (by have := gpr_lt i; omega)]
            exact hshows.gpr i
          · exact (heq (by decide)).trans hshows.hi
          · exact (heq (by decide)).trans hshows.lo
          · exact (heq (by decide)).trans hshows.pc
          · exact (heq (by decide)).trans hshows.nextPc
          · obtain ⟨-, -, -, hkept⟩ := finish_registers (q.assign ws) 0 0 pcAfter
            have hload : ((bare q).assign ws).registers LoadReg = 0 :=
              (assign_of_notMem fun hmem => absurd (hws ws pcAfter rfl _ hmem) (by decide)).trans
                h.idle
            rw [hkept LoadReg (by decide) (by decide) (by decide),
              Function.update_of_ne (by decide), Function.update_of_ne (by decide)]
            exact hload
  | load addr size rt nextLoadValue =>
      rw [Machine.perform, bare_reading] at hmeets
      exact absurd hmeets (not_meets_addressError _ _ _ _)
  | store addr size value =>
      rw [Machine.perform, bare_writing] at hmeets
      exact absurd hmeets (not_meets_addressError _ _ _ _)
  | merge addr value =>
      rw [Machine.perform, bare_reading] at hmeets
      exact absurd hmeets (not_meets_addressError _ _ _ _)

theorem Denotes.bare_shows (h : Denotes q c) : Shows (bare q) c.state :=
  ⟨h.gpr, h.hi, h.lo, h.pc, h.nextPc⟩

theorem Denotes.plain (h : Denotes q c) {i : Instr} (hdefined : i.Defined c.state)
    (hagrees : ¬ Deviates c.state i) :
    Agrees (q.perform ((Instruction.decode i.encode).execute q.registers))
      (c.after (i.exec c.state)) := by
  have hmeets := perform_meets h.bare_shows h.idle i hdefined
  rw [(simulated_eq_iff c.state i).2 hagrees] at hmeets
  refine h.perform (fun ws pcAfter hx i hi => ?_) hmeets
  exact lt_of_mem_writes (assign_subset_writes hx hi)

/-! ## Requests -/

theorem misaligned_iff {addr : BitVec 32} {n : ℕ} (hn : Sized n) :
    misaligned addr n ↔ addr.toNat % n ≠ 0 := by
  have hmask : ∀ k, k ≤ 2 →
      (addr &&& BitVec.ofNat 32 (2 ^ k - 1) ≠ 0#32 ↔ addr.toNat % 2 ^ k ≠ 0) := by
    intro k hk
    have hlt : 2 ^ k - 1 < 2 ^ 32 := by
      have : 2 ^ k ≤ 2 ^ 2 := Nat.pow_le_pow_right (by decide) hk
      omega
    refine not_congr ?_
    rw [← BitVec.toNat_inj, BitVec.toNat_and, BitVec.toNat_ofNat, Nat.mod_eq_of_lt hlt,
      Nat.and_two_pow_sub_one_eq_mod]
    rfl
  rcases hn with rfl | rfl | rfl
  · simp [misaligned, Nat.mod_one]
  · simpa [misaligned] using hmask 1 (by decide)
  · simpa [misaligned] using hmask 2 (by decide)

theorem Denotes.denied_iff (h : Denotes q c) {addr : BitVec 32} {n : ℕ} (hn : Sized n) :
    Denied q.size addr n ↔ c.Faults addr n := by
  rw [Denied, Computer.Faults, misaligned_iff hn, h.size]

def loadOpCode : LoadOp → OpCode
  | .lb => .lb
  | .lbu => .lbu
  | .lh => .lh
  | .lhu => .lhu
  | .lw => .lw

def storeOpCode : StoreOp → OpCode
  | .sb => .sb
  | .sh => .sh
  | .sw => .sw

theorem LoadOp.sized (op : LoadOp) : Sized op.size := by
  cases op <;> decide

theorem StoreOp.sized (op : StoreOp) : Sized op.size := by
  cases op <;> decide

/-- `ReadMem` extends a byte by its sign, and the instruction does so again or takes it back. -/
theorem byte_values : ∀ b : BitVec 8,
    (if b.signExtend 32 &&& 0x80#32 ≠ 0#32 then b.signExtend 32 ||| 0xffffff00#32
      else b.signExtend 32 &&& 0xff#32) = b.signExtend 32 ∧
    b.signExtend 32 &&& 0xff#32 = b.setWidth 32 := by
  decide +kernel

theorem half_low (h : BitVec 16) : h.setWidth 32 &&& 0xffff#32 = h.setWidth 32 := by
  have hlt := h.isLt
  have hmod : (h.setWidth 32).toNat % 2 ^ 16 = h.toNat := by
    rw [BitVec.toNat_setWidth]
    omega
  rw [and_low_half hmod, setWidth_eq_append]

theorem half_signed (h : BitVec 16) :
    (if h.setWidth 32 &&& 0x8000#32 ≠ 0#32 then h.setWidth 32 ||| 0xffff0000#32
      else h.setWidth 32 &&& 0xffff#32) = h.signExtend 32 := by
  have hlt := h.isLt
  have hmod : (h.setWidth 32).toNat % 2 ^ 16 = h.toNat := by
    rw [BitVec.toNat_setWidth]
    omega
  have hextra := extraOf_ifmt hmod
  simp only [extraOf, half_low] at hextra
  rw [half_low]
  exact hextra

/-- A load by the code. The test for the alignment is made twice. -/
theorem perform_load (q : Processor) (op : LoadOp) (base rt rd : Fin 32) (extra : BitVec 32) :
    q.perform (Instruction.execute ⟨loadOpCode op, base, rt, rd, extra⟩ q.registers) =
      if Denied q.size (q.registers (gpr base) + extra) op.size then .ok (.exception .addressError)
      else .ok (.finished (q.finish rt
        (op.result q.memory (q.registers (gpr base) + extra).toNat)
        (q.registers NextPCReg + 4))) := by
  cases op with
  | lb =>
      simp only [loadOpCode, Instruction.execute, Processor.perform, Processor.reading, load,
        (byte_values _).1]
      rfl
  | lbu =>
      simp only [loadOpCode, Instruction.execute, Processor.perform, Processor.reading, load,
        (byte_values _).2]
      rfl
  | lh =>
      simp only [loadOpCode, Instruction.execute]
      split
      · rename_i h
        rw [if_pos (.inl (.inr ⟨rfl, h⟩))]
        rfl
      · simp only [Processor.perform, Processor.reading, load, half_signed]
        rfl
  | lhu =>
      simp only [loadOpCode, Instruction.execute]
      split
      · rename_i h
        rw [if_pos (.inl (.inr ⟨rfl, h⟩))]
        rfl
      · simp only [Processor.perform, Processor.reading, load, half_low]
        rfl
  | lw =>
      simp only [loadOpCode, Instruction.execute]
      split
      · rename_i h
        rw [if_pos (.inl (.inl ⟨rfl, h⟩))]
        rfl
      · simp only [Processor.perform, Processor.reading, load]
        rfl

theorem perform_store (q : Processor) (op : StoreOp) (base rt rd : Fin 32) (extra : BitVec 32) :
    q.perform (Instruction.execute ⟨storeOpCode op, base, rt, rd, extra⟩ q.registers) =
      if Denied q.size (q.registers (gpr base) + extra) op.size then .ok (.exception .addressError)
      else .ok (.finished (Processor.finish
        { q with
          memory := Memory.put q.memory (q.registers (gpr base) + extra).toNat op.size
            (q.registers (gpr rt)) } 0 0 (q.registers NextPCReg + 4))) := by
  cases op <;>
    · simp only [storeOpCode, Instruction.execute, Processor.perform, Processor.writing]
      rfl

theorem write_zero (s : State) (value : Word) : s.write 0 value = s := by
  refine State.ext (fun i hi => ?_) rfl rfl rfl rfl
  rw [State.write_gpr, if_neg (mt And.left hi)]

/-- The register is loaded, and the program counters advance. -/
theorem Denotes.finish (h : Denotes q c) (rt : Fin 32) (value : BitVec 32) (memory : ℕ → Byte) :
    Denotes (Processor.finish { q with memory := memory } rt value (q.registers NextPCReg + 4))
      { c with
        state := (c.state.write rt value).advance
        memory := memory } := by
  obtain ⟨-, hpc, hnext, hkept⟩ :=
    finish_registers { q with memory := memory } rt value (q.registers NextPCReg + 4)
  have hbase : ∀ {i : Fin 40}, 32 ≤ i.val → i ≠ PrevPCReg → i ≠ PCReg → i ≠ NextPCReg →
      (Processor.finish { q with memory := memory } rt value
        (q.registers NextPCReg + 4)).registers i = q.registers i := by
    intro i hi hne₁ hne₂ hne₃
    have hi0 : i ≠ 0 := fun heq => absurd hi (by rw [heq]; decide)
    rw [hkept i hne₁ hne₂ hne₃, Function.update_of_ne hi0,
      Function.update_of_ne (gpr_ne_of_le hi).symm]
  refine ⟨fun i => ?_, ?_, ?_, ?_, ?_, ?_, rfl, h.size⟩
  · rw [hkept _ (gpr_ne_of_le (by decide)) (gpr_ne_of_le (by decide)) (gpr_ne_of_le (by decide))]
    change _ = (c.state.write rt value).gpr i
    rw [State.write_gpr]
    by_cases hi : i = 0
    · subst hi
      rw [if_neg fun hand => hand.2 rfl, c.state.gpr_zero]
      exact Function.update_self _ _ _
    · rw [Function.update_of_ne (gpr_ne_zero hi)]
      by_cases heq : i = rt
      · subst heq
        rw [Function.update_self, if_pos ⟨rfl, hi⟩]
      · rw [Function.update_of_ne (mt gpr_inj.1 heq), if_neg (mt And.left heq)]
        exact h.gpr i
  · exact (hbase (by decide) (by decide) (by decide) (by decide)).trans h.hi
  · exact (hbase (by decide) (by decide) (by decide) (by decide)).trans h.lo
  · exact hpc.trans h.nextPc
  · rw [hnext, h.nextPc]
    rfl
  · exact (hbase (by decide) (by decide) (by decide) (by decide)).trans h.idle

/-! ## All instructions -/

/-- The simulation leaves the architecture in the command. -/
def Deviating (c : Computer) : Command → Prop
  | .plain i => Deviates c.state i
  | _ => False

theorem syscall_decode (code : BitVec 20) :
    (Instruction.decode (Command.syscall code).encode).opCode = .syscall := by
  have hvalue : (Command.syscall code).encode.toNat = code.toNat * 2 ^ 6 + 12 := by
    simp only [Command.encode, toNat_append_eq, BitVec.toNat_ofNat]
    omega
  have hlt := code.isLt
  have hop : field (Command.syscall code).encode 26 6 = (0 : Fin (2 ^ 6)) := by
    apply Fin.ext
    rw [field_toNat, hvalue, Fin.val_zero]
    omega
  have hfunct : field (Command.syscall code).encode 0 6 = (12 : Fin (2 ^ 6)) := by
    apply Fin.ext
    rw [field_toNat, hvalue, pow_zero, Nat.div_one]
    change _ = 12
    omega
  rw [Instruction.decode, hop]
  simp only [opCodeOf, show opTable.get (0 : Fin (2 ^ 6)) = (.special, .rfmt) by rfl, hfunct,
    if_true]
  rfl

theorem Denotes.command (h : Denotes q c) {k : Command} (hdefined : k.Defined c)
    (hagrees : ¬ Deviating c k) :
    Agrees (q.perform ((Instruction.decode k.encode).execute q.registers)) (k.exec c) := by
  have haddress : ∀ base offset,
      c.state.gpr base + BitVec.signExtend 32 offset = c.address base offset := fun _ _ => rfl
  cases k with
  | plain i => exact h.plain hdefined hagrees
  | load op rt base offset =>
      have htable : opTable.get op.opcode.toFin = (loadOpCode op, .ifmt) := by cases op <;> rfl
      rw [Command.encode, iType_decode_plain _ htable (by cases op <;> decide)
        (by cases op <;> decide), perform_load, h.gpr, haddress base offset]
      simp only [Command.exec, h.denied_iff (LoadOp.sized op)]
      by_cases hfaults : c.Faults (c.address base offset) op.size
      · rw [if_pos hfaults, if_pos hfaults]
        rfl
      · rw [if_neg hfaults, if_neg hfaults]
        have hfinish := h.finish rt (op.result q.memory (c.address base offset).toNat) q.memory
        rw [← h.memory]
        exact ⟨_, rfl, hfinish⟩
  | store op rt base offset =>
      have htable : opTable.get op.opcode.toFin = (storeOpCode op, .ifmt) := by cases op <;> rfl
      rw [Command.encode, iType_decode_plain _ htable (by cases op <;> decide)
        (by cases op <;> decide), perform_store, h.gpr, haddress base offset]
      simp only [Command.exec, h.denied_iff (StoreOp.sized op)]
      by_cases hfaults : c.Faults (c.address base offset) op.size
      · rw [if_pos hfaults, if_pos hfaults]
        rfl
      · rw [if_neg hfaults, if_neg hfaults]
        have hfinish := h.finish 0 0 (Memory.put q.memory (c.address base offset).toNat op.size
          (q.registers (Mips.gpr rt)))
        rw [write_zero] at hfinish
        rw [h.memory, h.gpr] at hfinish ⊢
        exact ⟨_, rfl, hfinish⟩
  | syscall code =>
      have hop := syscall_decode code
      simp only [Instruction.execute, hop]
      rfl

/-- What the instruction at the program counter is, and that the simulation keeps to the
architecture in it. -/
def Proper (c : Computer) : Prop :=
  c.Faults c.state.pc 4 ∨ ∃ k : Command, c.memory.word c.state.pc.toNat = k.encode ∧ k.Defined c ∧
    ¬ Deviating c k

/-- The processor ends an instruction as the computer does. -/
theorem Denotes.oneInstruction (h : Denotes q c) (hproper : Proper c) :
    ∃ r, c.Ends r ∧ Agrees q.oneInstruction r := by
  have hfour : Sized 4 := .inr (.inr rfl)
  have hiff : Denied q.size (q.registers PCReg) 4 ↔ c.Faults c.state.pc 4 := by
    rw [h.pc]
    exact h.denied_iff hfour
  by_cases hfaults : c.Faults c.state.pc 4
  · exact ⟨_, .unfetched hfaults, if_pos (hiff.2 hfaults)⟩
  · obtain ⟨k, hword, hdefined, hagrees⟩ := hproper.resolve_left hfaults
    refine ⟨_, .command k hfaults hword hdefined, ?_⟩
    have hload : load q.memory (q.registers PCReg).toNat 4 = .ok k.encode := by
      rw [h.memory, h.pc, ← hword]
      rfl
    rw [Processor.oneInstruction, Processor.reading, if_neg (mt hiff.1 hfaults), hload]
    exact h.command hdefined hagrees

end Mips

end Nachos
