import Nachos.Machine.Operations
import Nachos.Machine.PreciseExceptions

/-!
# Arithmetic, logic and branches

`OneInstruction` beside the architecture, on the instructions that neither load nor store: the two
machines show the same registers before and after, except for three operations and for jumps out of
the last word of a region.
-/

namespace Nachos

namespace Mips

open Lib R2000

/-! ## The registers of the two machines -/

structure Shows (m : Machine) (s : State) : Prop where
  gpr : ∀ i, m.registers (gpr i) = s.gpr i
  hi : m.registers HiReg = s.hi
  lo : m.registers LoReg = s.lo
  pc : m.registers PCReg = s.pc
  nextPc : m.registers NextPCReg = s.nextPc

/-- The machine before `DelayedLoad` clears the register 0 and the program counters advance. No
load is pending. -/
structure Bears (m : Machine) (s : State) : Prop where
  gpr : ∀ i, i ≠ 0 → m.registers (Mips.gpr i) = s.gpr i
  hi : m.registers HiReg = s.hi
  lo : m.registers LoReg = s.lo
  nextPc : m.registers NextPCReg = s.nextPc
  idle : m.registers LoadReg = 0

/-- The run of an instruction from the state `s` ends as the architecture has it. -/
def Meets (r : Except Fault Ending) (s : State) : Outcome → Prop
  | .overflow => ∃ m', r = .ok (.exception .overflow 0 m') ∧ Shows m' s
  | .next s' => ∃ m', r = .ok (.finished m') ∧ Shows m' s'

variable {m m₁ : Machine} {s s' : State} {r : Except Fault Ending} {o o' : Outcome}

theorem Shows.unique (h : Shows m s) (h' : Shows m s') : s = s' :=
  State.ext (fun i _ => (h.gpr i).symm.trans (h'.gpr i)) (h.hi.symm.trans h'.hi)
    (h.lo.symm.trans h'.lo) (h.pc.symm.trans h'.pc) (h.nextPc.symm.trans h'.nextPc)

theorem Meets.unique (h : Meets r s o) (h' : Meets r s o') : o = o' := by
  cases o <;> cases o' <;> obtain ⟨m₁, h₁, hshows₁⟩ := h <;> obtain ⟨m₂, h₂, hshows₂⟩ := h' <;>
    cases h₁.symm.trans h₂
  · rfl
  · rw [hshows₁.unique hshows₂]

theorem Meets.iff_eq (h : Meets r s o) : Meets r s o' ↔ o = o' :=
  ⟨h.unique, fun heq => heq ▸ h⟩

theorem Shows.bears (h : Shows m s) (hidle : m.registers LoadReg = 0) : Bears m s :=
  ⟨fun i _ => h.gpr i, h.hi, h.lo, h.nextPc, hidle⟩

/-! ## What an instruction assigns -/

theorem assign_self (m : Machine) (k : Fin 40) (value : BitVec 32) :
    (m.assign [(k, value)]).registers k = value := by
  simp only [Machine.assign, List.foldl_cons, List.foldl_nil, Function.update_self]

theorem assign_of_ne (m : Machine) {j k : Fin 40} (h : j ≠ k) (value : BitVec 32) :
    (m.assign [(k, value)]).registers j = m.registers j := by
  simp only [Machine.assign, List.foldl_cons, List.foldl_nil, Function.update_of_ne h]

theorem gpr_ne_of_le {i : Fin 32} {k : Fin 40} (hk : 32 ≤ k.val) : gpr i ≠ k := by
  have := gpr_lt i
  intro h
  rw [h] at this
  omega

theorem Bears.write (h : Bears m s) (rd : Fin 32) (value : BitVec 32) :
    Bears (m.assign [(Mips.gpr rd, value)]) (s.write rd value) := by
  have hother : ∀ k : Fin 40, 32 ≤ k.val →
      (m.assign [(Mips.gpr rd, value)]).registers k = m.registers k := fun k hk =>
    assign_of_ne m (gpr_ne_of_le hk).symm value
  refine ⟨?_, ?_, ?_, ?_, ?_⟩
  · intro i hi
    rw [State.write_gpr]
    by_cases heq : i = rd
    · subst heq
      rw [if_pos ⟨rfl, hi⟩, assign_self]
    · rw [if_neg (mt And.left heq), assign_of_ne m (mt gpr_inj.1 heq), h.gpr i hi]
  · exact (hother HiReg (by decide)).trans h.hi
  · exact (hother LoReg (by decide)).trans h.lo
  · exact (hother NextPCReg (by decide)).trans h.nextPc
  · exact (hother LoadReg (by decide)).trans h.idle

theorem Bears.setHi (h : Bears m s) (value : BitVec 32) :
    Bears (m.assign [(HiReg, value)]) (s.setHiLo value s.lo) := by
  have hgpr : ∀ i, Mips.gpr i ≠ HiReg := fun i => gpr_ne_of_le (by decide)
  refine ⟨?_, assign_self m HiReg value, ?_, ?_, ?_⟩
  · intro i hi
    rw [assign_of_ne m (hgpr i)]
    exact h.gpr i hi
  · exact (assign_of_ne m (by decide) value).trans h.lo
  · exact (assign_of_ne m (by decide) value).trans h.nextPc
  · exact (assign_of_ne m (by decide) value).trans h.idle

theorem Bears.setLo (h : Bears m s) (value : BitVec 32) :
    Bears (m.assign [(LoReg, value)]) (s.setHiLo s.hi value) := by
  have hgpr : ∀ i, Mips.gpr i ≠ LoReg := fun i => gpr_ne_of_le (by decide)
  refine ⟨?_, ?_, assign_self m LoReg value, ?_, ?_⟩
  · intro i hi
    rw [assign_of_ne m (hgpr i)]
    exact h.gpr i hi
  · exact (assign_of_ne m (by decide) value).trans h.hi
  · exact (assign_of_ne m (by decide) value).trans h.nextPc
  · exact (assign_of_ne m (by decide) value).trans h.idle

/-! ## How it ends -/

theorem finish_ok {nextLoadReg nextLoadValue : BitVec 32} (pcAfter : BitVec 32) {r : Registers}
    (h : delayedLoad m.registers nextLoadReg nextLoadValue = .ok r) :
    ∃ m', m.finish nextLoadReg nextLoadValue pcAfter = .ok (.finished m') ∧
      m'.registers PCReg = r NextPCReg ∧ m'.registers NextPCReg = pcAfter ∧
      ∀ k, k ≠ PrevPCReg → k ≠ PCReg → k ≠ NextPCReg → m'.registers k = r k := by
  refine ⟨_, by rw [Machine.finish, h], ?_, ?_, ?_⟩
  · simp only [Function.update_of_ne (by decide : PCReg ≠ NextPCReg), Function.update_self,
      Function.update_of_ne (by decide : NextPCReg ≠ PrevPCReg)]
  · simp only [Function.update_self]
  · intro k hprev hpc hnext
    simp only [Function.update_of_ne hnext, Function.update_of_ne hpc, Function.update_of_ne hprev]

/-- The delayed load has nothing to load, and the register 0 is cleared. -/
theorem Bears.delayedLoad (h : Bears m s) :
    ∃ r, delayedLoad m.registers 0 0 = .ok r ∧ (∀ i, r (Mips.gpr i) = s.gpr i) ∧
      ∀ k : Fin 40, 32 ≤ k.val → k.val < 37 → r k = m.registers k := by
  have hindex : (m.registers LoadReg).toNat = 0 := by
    rw [h.idle]
    rfl
  obtain ⟨r, hr, hdone⟩ := delayedLoad_ok (r := m.registers) (by omega) 0 0
  refine ⟨r, hr, ?_, ?_⟩
  · intro i
    by_cases hi : i = 0
    · subst hi
      rw [s.gpr_zero]
      exact hdone.zero
    · have hne := gpr_ne_zero hi
      rw [hdone.kept _ hne (gpr_ne_of_le (by decide)) (gpr_ne_of_le (by decide)), h.gpr i hi]
      rw [hindex]
      exact fun hval => hne (Fin.ext hval)
  · intro k hk hk'
    have hne : ∀ j : Fin 40, j.val < 32 ∨ 37 ≤ j.val → k ≠ j := by
      rintro j hj rfl
      omega
    exact hdone.kept k (hne 0 (by decide)) (hne LoadReg (by decide)) (hne LoadValueReg (by decide))
      (by omega)

theorem Bears.finish (h : Bears m s) (s₀ : State) (pcAfter : BitVec 32) :
    Meets (m.finish 0 0 pcAfter) s₀ (.next (s.jump pcAfter)) := by
  obtain ⟨r, hr, hgpr, hrest⟩ := h.delayedLoad
  obtain ⟨m', hm', hpc, hnext, hkept⟩ := finish_ok pcAfter hr
  refine ⟨m', hm', ?_, ?_, ?_, ?_, hnext⟩
  · intro i
    rw [hkept _ (gpr_ne_of_le (by decide)) (gpr_ne_of_le (by decide)) (gpr_ne_of_le (by decide))]
    exact hgpr i
  · rw [hkept HiReg (by decide) (by decide) (by decide), hrest HiReg (by decide) (by decide)]
    exact h.hi
  · rw [hkept LoReg (by decide) (by decide) (by decide), hrest LoReg (by decide) (by decide)]
    exact h.lo
  · rw [hpc, hrest NextPCReg (by decide) (by decide)]
    exact h.nextPc

theorem Shows.overflow (h : Shows m s) (hidle : m.registers LoadReg = 0) :
    Meets (m.raiseException .overflow 0) s .overflow := by
  have hbears : Bears (m.assign [(BadVAddrReg, 0)]) s := by
    have hgpr : ∀ i, Mips.gpr i ≠ BadVAddrReg := fun i => gpr_ne_of_le (by decide)
    refine ⟨fun i _ => ?_, ?_, ?_, ?_, ?_⟩
    · exact (assign_of_ne m (hgpr i) 0).trans (h.gpr i)
    · exact (assign_of_ne m (by decide) 0).trans h.hi
    · exact (assign_of_ne m (by decide) 0).trans h.lo
    · exact (assign_of_ne m (by decide) 0).trans h.nextPc
    · exact (assign_of_ne m (by decide) 0).trans hidle
  obtain ⟨r, hr, hgpr, hrest⟩ := hbears.delayedLoad
  have hkept : ∀ k : Fin 40, 32 ≤ k.val → k.val < 37 → r k = m.registers k := by
    intro k hk hk'
    rw [hrest k hk hk', assign_of_ne m]
    rintro rfl
    exact absurd hk' (by decide)
  refine ⟨{ m with registers := r }, ?_, hgpr, ?_, ?_, ?_, ?_⟩
  · change Mips.delayedLoad (Function.update m.registers BadVAddrReg 0) 0 0 = .ok r at hr
    rw [Machine.raiseException, hr]
  · exact (hkept HiReg (by decide) (by decide)).trans h.hi
  · exact (hkept LoReg (by decide) (by decide)).trans h.lo
  · exact (hkept PCReg (by decide) (by decide)).trans h.pc
  · exact (hkept NextPCReg (by decide) (by decide)).trans h.nextPc

theorem perform_setting (h : Shows m s) (hidle : m.registers LoadReg = 0) (rd : Fin 32)
    (value : Option Word) :
    Meets (m.perform (setting rd (m.registers NextPCReg + 4) value)) s (s.set rd value) := by
  cases value with
  | none => exact h.overflow hidle
  | some value =>
      rw [h.nextPc]
      exact ((h.bears hidle).write rd value).finish s _

theorem Bears.setHiLo (h : Bears m s) (hi lo : BitVec 32) :
    Bears (m.assign [(HiReg, hi), (LoReg, lo)]) (s.setHiLo hi lo) ∧
      Bears (m.assign [(LoReg, lo), (HiReg, hi)]) (s.setHiLo hi lo) :=
  ⟨(h.setHi hi).setLo lo, (h.setLo lo).setHi hi⟩

/-! ## The instructions -/

/-- The target of a jump in the code: in the region of the word after the delay slot. -/
def jumpTarget (s : State) (target : BitVec 26) : BitVec 32 :=
  (s.link &&& 0xf0000000#32) ||| (target.setWidth 32 <<< 2)

/-- What the simulation makes of an instruction. -/
def simulated (s : State) : Instr → Outcome
  | .register op rd rs rt => s.set rd (registerResult (s.gpr rs) (s.gpr rt) op)
  | .shift op rd rt shamt => s.set rd (some (shiftResult (s.gpr rt) shamt op))
  | .j target => .next (s.jump (jumpTarget s target))
  | .jal target => .next ((s.write 31 s.link).jump (jumpTarget s target))
  | i => i.exec s

theorem oneInstruction_of_fetch {raw : BitVec 32}
    (hfetch : m.readMem (m.registers PCReg) 4 = .ok (.ok (raw, m₁))) :
    m.oneInstruction = m₁.perform ((Instruction.decode raw).execute m₁.registers) := by
  rw [Machine.oneInstruction, Machine.reading, hfetch]

theorem perform_jump (h : Shows m s) (hidle : m.registers LoadReg = 0) {target target' : Word}
    (heq : target = target') : Meets (m.perform (.assign [] target)) s (.next (s.jump target')) :=
  heq ▸ (h.bears hidle).finish s target

/-- A jump that leaves the address after its delay slot in a register. -/
theorem perform_link (h : Shows m s) (hidle : m.registers LoadReg = 0) (rd : Fin 32)
    {target target' : Word} (heq : target = target') :
    Meets (m.perform (.assign [(gpr rd, m.registers NextPCReg + 4)] target)) s
      (.next ((s.write rd s.link).jump target')) := by
  rw [h.nextPc]
  exact heq ▸ ((h.bears hidle).write rd s.link).finish s target

theorem perform_meets (h : Shows m s) (hidle : m.registers LoadReg = 0) (i : Instr)
    (hdefined : i.Defined s) :
    Meets (m.perform ((Instruction.decode i.encode).execute m.registers)) s (simulated s i) := by
  have hset := perform_setting h hidle
  cases i with
  | register op rd rs rt =>
      have hop : specialTable.get op.funct.toFin = registerOpCode op := by cases op <;> rfl
      rw [Instr.encode, rType_decode _ hop, execute_register, h.gpr, h.gpr]
      exact hset rd _
  | shift op rd rt shamt =>
      have hop : specialTable.get op.funct.toFin = shiftOpCode op := by cases op <;> rfl
      rw [Instr.encode, rType_decode _ hop, execute_shift, h.gpr]
      exact hset rd _
  | immediate op rt rs imm =>
      have hop : opTable.get op.opcode.toFin = (immediateOpCode op, .ifmt) := by cases op <;> rfl
      rw [Instr.encode, iType_decode_plain _ hop (by cases op <;> decide) (by cases op <;> decide),
        execute_immediate, h.gpr]
      exact hset rt _
  | lui rt imm =>
      rw [Instr.encode, iType_decode_plain .lui rfl (by decide) (by decide), execute_lui]
      exact hset rt _
  | hiLo op rs rt =>
      have hop : specialTable.get op.funct.toFin = hiLoOpCode op := by cases op <;> rfl
      obtain ⟨hi, lo, hresult, hexecute⟩ := execute_hiLo op 0
        (BitVec.ofNat 32 (0 : Fin 32)) (h.gpr rs) (h.gpr rt) hdefined
      have hassigned := (h.bears hidle).setHiLo hi lo
      rw [Instr.encode, rType_decode _ hop]
      simp only [simulated, Instr.exec, ← hresult]
      rcases hexecute with hexecute | hexecute
      · rw [hexecute, h.nextPc]
        exact hassigned.1.finish s _
      · rw [hexecute, h.nextPc]
        exact hassigned.2.finish s _
  | mfhi rd =>
      rw [Instr.encode, rType_decode .mfhi rfl]
      simp only [Instruction.execute]
      rw [h.hi]
      exact hset rd (some s.hi)
  | mflo rd =>
      rw [Instr.encode, rType_decode .mflo rfl]
      simp only [Instruction.execute]
      rw [h.lo]
      exact hset rd (some s.lo)
  | mthi rs =>
      rw [Instr.encode, rType_decode .mthi rfl]
      simp only [Instruction.execute]
      rw [h.gpr, h.nextPc]
      exact ((h.bears hidle).setHi (s.gpr rs)).finish s _
  | mtlo rs =>
      rw [Instr.encode, rType_decode .mtlo rfl]
      simp only [Instruction.execute]
      rw [h.gpr, h.nextPc]
      exact ((h.bears hidle).setLo (s.gpr rs)).finish s _
  | beq rs rt offset =>
      rw [Instr.encode, iType_decode_plain .beq rfl (by decide) (by decide)]
      simp only [Instruction.execute]
      rw [h.gpr, h.gpr, h.nextPc]
      exact perform_jump h hidle rfl
  | bne rs rt offset =>
      rw [Instr.encode, iType_decode_plain .bne rfl (by decide) (by decide)]
      simp only [Instruction.execute]
      rw [h.gpr, h.gpr, h.nextPc]
      exact perform_jump h hidle rfl
  | sign op rs offset =>
      obtain ⟨rt, rd, hdecode⟩ := sign_decode op rs offset
      rw [Instr.encode, hdecode, execute_sign op hdefined, h.gpr]
      simp only [simulated, Instr.exec]
      split
      · exact perform_link h hidle 31 (by rw [h.nextPc]; rfl)
      · exact perform_jump h hidle (by rw [h.nextPc]; rfl)
  | j target =>
      obtain ⟨rs, rt, rd, hdecode⟩ := jType_decode 2 .j rfl (by decide)
        (by decide) target
      rw [Instr.encode, hdecode]
      simp only [Instruction.execute]
      rw [h.nextPc]
      exact perform_jump h hidle rfl
  | jal target =>
      obtain ⟨rs, rt, rd, hdecode⟩ := jType_decode 3 .jal rfl (by decide)
        (by decide) target
      rw [Instr.encode, hdecode]
      simp only [Instruction.execute]
      exact perform_link h hidle 31 (by rw [h.nextPc]; rfl)
  | jr rs =>
      rw [Instr.encode, rType_decode .jr rfl]
      simp only [Instruction.execute]
      exact perform_jump h hidle (h.gpr rs)
  | jalr rd rs =>
      rw [Instr.encode, rType_decode .jalr rfl]
      simp only [Instruction.execute]
      refine perform_link h hidle rd ?_
      rw [Function.update_of_ne (mt gpr_inj.1 hdefined), h.gpr]

/-! ## The architecture -/

/-- The instructions with which the simulation leaves the architecture. -/
def Deviates (s : State) : Instr → Prop
  | .register .or rd rs rt => rd ≠ 0 ∧ s.gpr rt &&& ~~~s.gpr rs ≠ 0
  | .register .srlv rd rs rt => rd ≠ 0 ∧ (s.gpr rt).toInt < 0 ∧ (s.gpr rs).toNat % 32 ≠ 0
  | .shift .srl rd rt shamt => rd ≠ 0 ∧ (s.gpr rt).toInt < 0 ∧ shamt ≠ 0
  | .j _ | .jal _ => 2 ^ 28 - 4 ≤ s.nextPc.toNat % 2 ^ 28
  | _ => False

theorem set_eq_iff (s : State) (rd : Fin 32) (value value' : BitVec 32) :
    s.set rd (some value) = s.set rd (some value') ↔ rd ≠ 0 → value = value' := by
  constructor
  · intro h hrd
    have hgpr := congrArg (fun t : State => t.gpr rd) (Outcome.next.inj h)
    change (s.write rd value).gpr rd = (s.write rd value').gpr rd at hgpr
    rwa [State.write_gpr, State.write_gpr, if_pos ⟨rfl, hrd⟩, if_pos ⟨rfl, hrd⟩] at hgpr
  · intro h
    refine congrArg (fun t : State => Outcome.next t.advance) ?_
    refine State.ext (fun i hi => ?_) rfl rfl rfl rfl
    rw [State.write_gpr, State.write_gpr]
    by_cases hrd : i = rd ∧ i ≠ 0
    · rw [if_pos hrd, if_pos hrd, h (hrd.1 ▸ hrd.2)]
    · rw [if_neg hrd, if_neg hrd]

theorem or_self_eq_or_iff (x y : BitVec 32) : x ||| x = x ||| y ↔ y &&& ~~~x = 0#32 := by
  rw [BitVec.eq_of_getElem_eq_iff, BitVec.eq_of_getElem_eq_iff]
  refine forall_congr' fun i => forall_congr' fun hi => ?_
  simp only [BitVec.getElem_or, BitVec.getElem_and, BitVec.getElem_not, BitVec.getElem_zero]
  cases x[i] <;> cases y[i] <;> decide

theorem sshiftRight_eq_iff (x : BitVec 32) (k : ℕ) :
    x.sshiftRight k = x >>> k ↔ ¬ (x.toInt < 0 ∧ k ≠ 0) := by
  rw [← slt_zero_iff, BitVec.slt_zero_eq_msb]
  by_cases hk0 : k = 0
  · simp [hk0]
  · cases hmsb : x.msb with
    | false => simp [BitVec.sshiftRight_eq_of_msb_false hmsb]
    | true =>
        simp only [hk0, ne_eq, not_false_eq_true, and_self, not_true_eq_false, iff_false]
        intro h
        have htop := congrArg BitVec.msb h
        rw [BitVec.msb_sshiftRight, hmsb, BitVec.msb_ushiftRight] at htop
        simp [hk0] at htop

/-- The two parts of the target of a jump. -/
theorem region_or (x : BitVec 32) (target : BitVec 26) :
    (x &&& 0xf0000000#32) ||| (target.setWidth 32 <<< 2) =
      x.extractLsb' 28 4 ++ (target ++ 0#2) := by
  have hlt := target.isLt
  have hx : x = x.extractLsb' 28 4 ++ x.extractLsb' 0 28 := by
    apply BitVec.eq_of_toNat_eq
    have := x.isLt
    rw [toNat_append_eq, BitVec.extractLsb'_toNat, BitVec.extractLsb'_toNat,
      Nat.shiftRight_eq_div_pow, Nat.shiftRight_eq_div_pow]
    omega
  have hshift : target.setWidth 32 <<< 2 = 0#4 ++ (target ++ 0#2) := by
    apply BitVec.eq_of_toNat_eq
    rw [toNat_append_eq, toNat_append_eq, BitVec.toNat_shiftLeft, Nat.shiftLeft_eq,
      BitVec.toNat_setWidth, BitVec.toNat_ofNat, BitVec.toNat_ofNat]
    omega
  have hmask : 0xf0000000#32 = BitVec.allOnes 4 ++ 0#28 := rfl
  rw [hshift, hmask]
  conv_lhs => rw [hx]
  rw [BitVec.and_append, BitVec.and_allOnes, BitVec.and_zero, BitVec.or_append, BitVec.or_zero,
    BitVec.zero_or]

theorem jumpTarget_eq_iff (s : State) (target : BitVec 26) :
    jumpTarget s target = s.target target ↔ ¬ 2 ^ 28 - 4 ≤ s.nextPc.toNat % 2 ^ 28 := by
  have hassoc : s.target target = s.nextPc.extractLsb' 28 4 ++ (target ++ 0#2) := by
    rw [State.target, BitVec.append_assoc]
    rfl
  have hlt := s.nextPc.isLt
  rw [jumpTarget, region_or, hassoc, BitVec.append_left_inj, ← BitVec.toNat_inj,
    BitVec.extractLsb'_toNat, BitVec.extractLsb'_toNat, Nat.shiftRight_eq_div_pow,
    Nat.shiftRight_eq_div_pow, State.link, BitVec.toNat_add, show (4 : Word).toNat = 4 by rfl]
  omega

theorem simulated_eq_iff (s : State) (i : Instr) : simulated s i = i.exec s ↔ ¬ Deviates s i := by
  cases i with
  | register op rd rs rt =>
      cases op with
      | or =>
          simp only [simulated, registerResult, Instr.exec, RegisterOp.result, set_eq_iff,
            or_self_eq_or_iff, Deviates]
          tauto
      | srlv =>
          simp only [simulated, registerResult, Instr.exec, RegisterOp.result, set_eq_iff,
            sshiftRight_eq_iff, Deviates]
          tauto
      | add | addu | sub | subu | and | xor | nor | slt | sltu | sllv | srav =>
          exact iff_of_true rfl not_false
  | shift op rd rt shamt =>
      cases op with
      | srl =>
          simp only [simulated, shiftResult, Instr.exec, ShiftOp.result, set_eq_iff,
            sshiftRight_eq_iff, Deviates, ne_eq, Fin.val_eq_zero_iff]
          tauto
      | sll | sra => exact iff_of_true rfl not_false
  | j target =>
      rw [simulated, Instr.exec, Outcome.next.injEq]
      exact Iff.trans ⟨fun h => congrArg State.nextPc h, fun h => congrArg s.jump h⟩
        (jumpTarget_eq_iff s target)
  | jal target =>
      rw [simulated, Instr.exec, Outcome.next.injEq]
      exact Iff.trans
        ⟨fun h => congrArg State.nextPc h, fun h => congrArg (s.write 31 s.link).jump h⟩
        (jumpTarget_eq_iff s target)
  | immediate | lui | hiLo | mfhi | mflo | mthi | mtlo | beq | bne | sign | jr | jalr =>
      exact iff_of_true rfl not_false

theorem oneInstruction_meets {i : Instr} (hshows : Shows m s) (hidle : m.registers LoadReg = 0)
    (hdefined : i.Defined s)
    (hfetch : m.readMem (m.registers PCReg) 4 = .ok (.ok (i.encode, m₁))) :
    Meets m.oneInstruction s (simulated s i) := by
  have hframe := (readMem_frame hfetch).2
  have hshows₁ : Shows m₁ s := by
    obtain ⟨hgpr, hhi, hlo, hpc, hnext⟩ := hshows
    exact ⟨by rwa [hframe], by rwa [hframe], by rwa [hframe], by rwa [hframe], by rwa [hframe]⟩
  rw [oneInstruction_of_fetch hfetch]
  exact perform_meets hshows₁ (by rwa [hframe]) i hdefined

/-- With no load pending and 0 in the register 0, an instruction ends as the architecture has it,
unless it is one of those with which the simulation deviates. -/
theorem oneInstruction_architecture_iff (m m₁ : Machine) (s : State) (i : Instr)
    (hshows : Shows m s) (hidle : m.registers LoadReg = 0) (hdefined : i.Defined s)
    (hfetch : m.readMem (m.registers PCReg) 4 = .ok (.ok (i.encode, m₁))) :
    Meets m.oneInstruction s (i.exec s) ↔ ¬ Deviates s i :=
  (oneInstruction_meets hshows hidle hdefined hfetch).iff_eq.trans (simulated_eq_iff s i)

theorem oneInTwo_zero : (if (0 : Reg) = 2 then (1 : Word) else 0) = 0 := rfl

/-- A 1 in the register 2, before the first instruction of a program. -/
def oneInTwo : State where
  gpr := fun i => if i = 2 then 1 else 0
  hi := 0
  lo := 0
  pc := 0
  nextPc := 4
  gpr_zero := oneInTwo_zero

/-- The program is the instruction. -/
def running (word : BitVec 32) : Machine where
  registers := fun i => if i = 2 then 1 else if i = NextPCReg then 4 else 0
  mainMemory := fun a => if a < 4 then word.extractLsb' (8 * a) 8 else 0
  pageTable := onePage true
  pageTableSize := 1

theorem running_shows (word : BitVec 32) : Shows (running word) oneInTwo := by
  have hgpr : ∀ i : Fin 32, (if gpr i = 2 then (1 : BitVec 32)
      else if gpr i = NextPCReg then 4 else 0) = if i = 2 then 1 else 0 := by decide
  exact ⟨hgpr, rfl, rfl, rfl, rfl⟩

theorem running_fetch (word : BitVec 32) :
    ∃ m₁, (running word).readMem ((running word).registers PCReg) 4 = .ok (.ok (word, m₁)) := by
  have hload : load (running word).mainMemory 0 4 = .ok word := by
    have hlt := word.isLt
    refine congrArg Except.ok (BitVec.eq_of_toNat_eq ?_)
    simp only [toNat_append_eq, running, BitVec.extractLsb'_toNat, Nat.shiftRight_eq_div_pow,
      if_true, (by decide : (0 : ℕ) + 3 < 4), (by decide : (0 : ℕ) + 2 < 4),
      (by decide : (0 : ℕ) + 1 < 4), (by decide : (0 : ℕ) < 4)]
    omega
  have htranslate : translate numPhysPages (onePage true) 1 0 4 false =
      .ok (.physical 0 { onePage true 0 with use := true }) := rfl
  exact ⟨_, readMem_eq htranslate hload⟩

/-- `OR r1,r0,r2` leaves a 0 in the register 1. -/
theorem or_reads_rs_twice :
    ∃ (m m₁ : Machine) (s : State) (i : Instr), Shows m s ∧ m.registers LoadReg = 0 ∧ i.Defined s ∧
      m.readMem (m.registers PCReg) 4 = .ok (.ok (i.encode, m₁)) ∧
      ¬ Meets m.oneInstruction s (i.exec s) := by
  obtain ⟨m₁, hfetch⟩ := running_fetch (Instr.register .or 1 0 2).encode
  refine ⟨_, m₁, oneInTwo, .register .or 1 0 2, running_shows _, rfl, trivial, hfetch, ?_⟩
  have hmeets := oneInstruction_meets (i := .register .or 1 0 2) (running_shows _) rfl
    trivial hfetch
  rw [hmeets.iff_eq, simulated_eq_iff, not_not]
  exact ⟨by decide, by decide⟩

theorem oneInstruction_addu :
    Meets (running (Instr.register .addu 1 2 2).encode).oneInstruction oneInTwo
      ((Instr.register .addu 1 2 2).exec oneInTwo) := by
  obtain ⟨m₁, hfetch⟩ := running_fetch (Instr.register .addu 1 2 2).encode
  exact (oneInstruction_architecture_iff _ m₁ oneInTwo (.register .addu 1 2 2) (running_shows _) rfl
    trivial hfetch).2 id

end Mips

end Nachos
