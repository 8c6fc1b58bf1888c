import Nachos.Machine.Multiplication
import Nachos.Machine.R2000

/-!
# The operations of the R2000

How `Decode` takes the instructions of the R2000 that neither load nor store, and what the `switch`
of `OneInstruction` makes of their operands.
-/

namespace Nachos

namespace Mips

open Lib R2000

/-! ## Decoding -/

theorem field_toNat (value : BitVec 32) (lo width : ℕ) :
    (field value lo width).val = value.toNat / 2 ^ lo % 2 ^ width := by
  simp [field, Nat.shiftRight_eq_div_pow]

theorem toNat_bits (i : Fin 32) : (bits i).toNat = i.val := by
  have := i.isLt
  simp only [bits, BitVec.toNat_ofNat]
  omega

theorem toNat_rType (rs rt rd shamt : Fin 32) (funct : BitVec 6) :
    (rType rs rt rd shamt funct).toNat =
      rs.val * 2 ^ 21 + rt.val * 2 ^ 16 + rd.val * 2 ^ 11 + shamt.val * 2 ^ 6 + funct.toNat := by
  simp only [rType, toNat_append_eq, toNat_bits, BitVec.toNat_ofNat]
  omega

theorem toNat_iType (opcode : BitVec 6) (rs rt : Fin 32) (imm : BitVec 16) :
    (iType opcode rs rt imm).toNat =
      opcode.toNat * 2 ^ 26 + rs.val * 2 ^ 21 + rt.val * 2 ^ 16 + imm.toNat := by
  simp only [iType, toNat_append_eq, toNat_bits]
  omega

theorem toNat_jType (opcode : BitVec 6) (target : BitVec 26) :
    (jType opcode target).toNat = opcode.toNat * 2 ^ 26 + target.toNat :=
  toNat_append_eq opcode target

theorem rType_decode {funct : BitVec 6} (op : OpCode) (htable : specialTable.get funct.toFin = op)
    (rs rt rd shamt : Fin 32) :
    Instruction.decode (rType rs rt rd shamt funct) =
      { opCode := op
        rs := rs
        rt := rt
        rd := rd
        extra := BitVec.ofNat 32 shamt } := by
  have hvalue := toNat_rType rs rt rd shamt funct
  have hlt := funct.isLt
  have hop : field (rType rs rt rd shamt funct) 26 6 = (0 : Fin (2 ^ 6)) := by
    apply Fin.ext
    rw [field_toNat, hvalue, Fin.val_zero]
    omega
  have hfunct : field (rType rs rt rd shamt funct) 0 6 = funct.toFin := by
    apply Fin.ext
    rw [field_toNat, hvalue, pow_zero, Nat.div_one]
    change _ = funct.toNat
    omega
  have hextra : extraOf (rType rs rt rd shamt funct) .rfmt = BitVec.ofNat 32 shamt := by
    apply BitVec.eq_of_toNat_eq
    simp only [extraOf, BitVec.toNat_and, BitVec.toNat_ushiftRight, hvalue, BitVec.toNat_ofNat]
    rw [show 31 % 2 ^ 32 = 2 ^ 5 - 1 by rfl, Nat.and_two_pow_sub_one_eq_mod,
      Nat.shiftRight_eq_div_pow]
    omega
  rw [Instruction.decode, hop, Instruction.mk.injEq]
  refine ⟨?_, ?_, ?_, ?_, hextra⟩
  · rw [← htable, ← hfunct]
    rfl
  all_goals
    apply Fin.ext
    rw [field_toNat, hvalue]
    omega

theorem signExtend_eq_append (imm : BitVec 16) :
    imm.signExtend 32 = (if imm.msb then 0xffff#16 else 0#16) ++ imm :=
  BitVec.signExtend_eq_append_of_le (by decide : 16 ≤ 32)

theorem setWidth_eq_append (imm : BitVec 16) : imm.setWidth 32 = 0#16 ++ imm :=
  BitVec.setWidth_eq_append (by decide : 16 ≤ 32)

theorem and_low_half {value : BitVec 32} {imm : BitVec 16} (h : value.toNat % 2 ^ 16 = imm.toNat) :
    value &&& 0xffff#32 = 0#16 ++ imm := by
  apply BitVec.eq_of_toNat_eq
  rw [BitVec.toNat_and, show (0xffff#32).toNat = 2 ^ 16 - 1 by rfl, Nat.and_two_pow_sub_one_eq_mod,
    h, toNat_append_eq]
  simp

/-- The immediate operand is extended by its sign. -/
theorem extraOf_ifmt {value : BitVec 32} {imm : BitVec 16} (h : value.toNat % 2 ^ 16 = imm.toNat) :
    extraOf value .ifmt = imm.signExtend 32 := by
  have hsign : (0#16 ++ imm) &&& 0x8000#32 ≠ 0#32 ↔ imm.msb = true := by
    rw [BitVec.msb_eq_getLsbD_last]
    have := and_twoPow_ne_zero_iff (0#16 ++ imm) (by decide : 15 < 32)
    rwa [BitVec.getLsbD_append] at this
  have hones : 0xffff0000#32 = 0xffff#16 ++ 0#16 := rfl
  simp only [extraOf, and_low_half h, hsign, signExtend_eq_append]
  by_cases hmsb : imm.msb = true
  · rw [if_pos hmsb, if_pos hmsb, hones, BitVec.or_append, BitVec.zero_or, BitVec.or_zero]
  · rw [if_neg hmsb, if_neg hmsb]

theorem iType_decode (opcode : BitVec 6) (rs rt : Fin 32) (imm : BitVec 16)
    (hformat : (opTable.get opcode.toFin).2 = .ifmt) :
    Instruction.decode (iType opcode rs rt imm) =
      { opCode := opCodeOf (iType opcode rs rt imm) (opTable.get opcode.toFin).1
        rs := rs
        rt := rt
        rd := field (iType opcode rs rt imm) 11 5
        extra := imm.signExtend 32 } := by
  have hvalue := toNat_iType opcode rs rt imm
  have hlt := imm.isLt
  have hop : field (iType opcode rs rt imm) 26 6 = opcode.toFin := by
    apply Fin.ext
    have := opcode.isLt
    rw [field_toNat, hvalue]
    change _ = opcode.toNat
    omega
  have hextra : extraOf (iType opcode rs rt imm) .ifmt = imm.signExtend 32 :=
    extraOf_ifmt (by rw [hvalue]; omega)
  rw [Instruction.decode, hop, Instruction.mk.injEq, hformat]
  refine ⟨rfl, ?_, ?_, rfl, hextra⟩
  all_goals
    apply Fin.ext
    rw [field_toNat, hvalue]
    omega

theorem iType_decode_plain {opcode : BitVec 6} (op : OpCode)
    (htable : opTable.get opcode.toFin = (op, .ifmt)) (hspecial : op ≠ .special)
    (hbcond : op ≠ .bcond) (rs rt : Fin 32) (imm : BitVec 16) :
    Instruction.decode (iType opcode rs rt imm) =
      ⟨op, rs, rt, field (iType opcode rs rt imm) 11 5, imm.signExtend 32⟩ := by
  rw [iType_decode _ _ _ _ (by rw [htable]), htable, opCodeOf, if_neg hspecial, if_neg hbcond]

/-- The code of a branch with the opcode 1. -/
def bcondOf (rt : Fin 32) : OpCode :=
  if rt = 0 then .bltz else if rt = 1 then .bgez else if rt = 16 then .bltzal
  else if rt = 17 then .bgezal else .unimp

theorem opCodeOf_bcond (rs rt : Fin 32) (imm : BitVec 16) :
    opCodeOf (iType 1 rs rt imm) .bcond = bcondOf rt := by
  have hmask : iType 1 rs rt imm &&& 0x1f0000#32 = 0#11 ++ bits rt ++ 0#16 := by
    rw [show 0x1f0000#32 = 0#6 ++ 0#5 ++ BitVec.allOnes 5 ++ 0#16 by rfl, iType,
      BitVec.and_append, BitVec.and_append, BitVec.and_append, BitVec.and_allOnes,
      BitVec.and_zero, BitVec.and_zero, BitVec.and_zero, BitVec.zero_append_zero]
  simp only [opCodeOf, hmask, reduceCtorEq, ↓reduceIte]
  clear hmask
  revert rt
  decide

theorem bcond_decode (rs rt : Fin 32) (imm : BitVec 16) :
    Instruction.decode (iType 1 rs rt imm) =
      ⟨bcondOf rt, rs, rt, field (iType 1 rs rt imm) 11 5, imm.signExtend 32⟩ := by
  have htable : opTable.get (1 : BitVec 6).toFin = (.bcond, .ifmt) := rfl
  rw [iType_decode _ _ _ _ (by rw [htable]), htable, opCodeOf_bcond]

theorem jType_decode (opcode : BitVec 6) (op : OpCode)
    (htable : opTable.get opcode.toFin = (op, .jfmt)) (hspecial : op ≠ .special)
    (hbcond : op ≠ .bcond) (target : BitVec 26) :
    ∃ rs rt rd, Instruction.decode (jType opcode target) =
      ⟨op, rs, rt, rd, target.setWidth 32⟩ := by
  have hvalue := toNat_jType opcode target
  have hlt := target.isLt
  have hop : field (jType opcode target) 26 6 = opcode.toFin := by
    apply Fin.ext
    have := opcode.isLt
    rw [field_toNat, hvalue]
    change _ = opcode.toNat
    omega
  have hextra : extraOf (jType opcode target) .jfmt = target.setWidth 32 := by
    apply BitVec.eq_of_toNat_eq
    simp only [extraOf, BitVec.toNat_and, hvalue, BitVec.toNat_setWidth]
    rw [show (0x3ffffff#32).toNat = 2 ^ 26 - 1 by rfl, Nat.and_two_pow_sub_one_eq_mod]
    omega
  refine ⟨field (jType opcode target) 21 5, field (jType opcode target) 16 5,
    field (jType opcode target) 11 5, ?_⟩
  rw [Instruction.decode, hop, htable, opCodeOf, if_neg hspecial, if_neg hbcond, hextra]

/-! ## Registers and immediate operands -/

theorem gpr_inj {i j : Fin 32} : gpr i = gpr j ↔ i = j :=
  ⟨fun h => Fin.ext (Fin.mk.inj h), fun h => congrArg gpr h⟩

/-- An instruction that sets a register, or overflows. -/
def setting (rd : Fin 32) (pcAfter : BitVec 32) : Option Word → Execution
  | none => .raise .overflow 0
  | some value => .assign [(gpr rd, value)] pcAfter

/-- The number that a word stands for after it has wrapped around. -/
theorem toInt_ofInt_eq (z : ℤ) :
    (BitVec.ofInt 32 z).toInt =
      if z % 2 ^ 32 < 2 ^ 31 then z % 2 ^ 32 else z % 2 ^ 32 - 2 ^ 32 := by
  rw [BitVec.toInt_ofInt, Int.bmod_def]
  norm_num

theorem signedWord_eq (z : ℤ) :
    signedWord z =
      if (BitVec.ofInt 32 z).toInt = z then some (BitVec.ofInt 32 z) else none := by
  have hiff : -2 ^ 31 ≤ z ∧ z < 2 ^ 31 ↔ (BitVec.ofInt 32 z).toInt = z := by
    rw [toInt_ofInt_eq]
    split <;> omega
  simp only [signedWord, hiff]

theorem toInt_bounds (x : BitVec 32) : -2 ^ 31 ≤ x.toInt ∧ x.toInt < 2 ^ 31 :=
  ⟨BitVec.le_toInt x, BitVec.toInt_lt⟩

theorem xor_signBit_iff (x y : BitVec 32) :
    (x ^^^ y) &&& signBit = 0#32 ↔ (x.toInt < 0 ↔ y.toInt < 0) := by
  have hne := and_signBit_ne_zero_iff (x ^^^ y)
  rw [signBit, ← not_iff_not, ← ne_eq, hne, BitVec.msb_xor, ← slt_zero_iff, ← slt_zero_iff,
    BitVec.slt_zero_eq_msb, BitVec.slt_zero_eq_msb]
  cases x.msb <;> cases y.msb <;> simp

/-- The overflow test of an addition: equal signs of the operands, and another one of the sum. -/
theorem add_overflow (x y : BitVec 32) :
    signedWord (x.toInt + y.toInt) =
      if (x ^^^ y) &&& signBit = 0#32 ∧ (x ^^^ (x + y)) &&& signBit ≠ 0#32 then none
      else some (x + y) := by
  have hsum : BitVec.ofInt 32 (x.toInt + y.toInt) = x + y := by
    rw [BitVec.ofInt_add, BitVec.ofInt_toInt, BitVec.ofInt_toInt]
  have hwrap := toInt_ofInt_eq (x.toInt + y.toInt)
  have hx := toInt_bounds x
  have hy := toInt_bounds y
  rw [hsum] at hwrap
  rw [signedWord_eq, hsum]
  simp only [ne_eq, xor_signBit_iff]
  split at hwrap <;> split <;> split <;> first | rfl | omega

theorem sub_overflow (x y : BitVec 32) :
    signedWord (x.toInt - y.toInt) =
      if (x ^^^ y) &&& signBit ≠ 0#32 ∧ (x ^^^ (x - y)) &&& signBit ≠ 0#32 then none
      else some (x - y) := by
  have hdiff : BitVec.ofInt 32 (x.toInt - y.toInt) = x - y := by
    rw [Int.sub_eq_add_neg, BitVec.ofInt_add, BitVec.ofInt_neg, BitVec.ofInt_toInt,
      BitVec.ofInt_toInt, ← BitVec.sub_eq_add_neg]
  have hwrap := toInt_ofInt_eq (x.toInt - y.toInt)
  have hx := toInt_bounds x
  have hy := toInt_bounds y
  rw [hdiff] at hwrap
  rw [signedWord_eq, hdiff]
  simp only [ne_eq, xor_signBit_iff]
  split at hwrap <;> split <;> split <;> first | rfl | omega

theorem and_shiftMask (x : BitVec 32) : (x &&& 0x1f#32).toNat = x.toNat % 32 := by
  rw [BitVec.toNat_and, show (0x1f#32).toNat = 2 ^ 5 - 1 by rfl, Nat.and_two_pow_sub_one_eq_mod]

theorem truth_slt (x y : BitVec 32) :
    truth (x.toInt < y.toInt) = if x.slt y then 1 else 0 := by
  simp only [truth, BitVec.slt_iff_toInt_lt]

theorem truth_ult (x y : BitVec 32) :
    truth (x.toNat < y.toNat) = if x.ult y then 1 else 0 := by
  simp only [truth, BitVec.ult_iff_toNat_lt]

variable {rs rt rd : Fin 32} {extra : BitVec 32} {regs : Registers}

def registerOpCode : RegisterOp → OpCode
  | .add => .add
  | .addu => .addu
  | .sub => .sub
  | .subu => .subu
  | .and => .and
  | .or => .or
  | .xor => .xor
  | .nor => .nor
  | .slt => .slt
  | .sltu => .sltu
  | .sllv => .sllv
  | .srlv => .srlv
  | .srav => .srav

/-- What the `switch` makes of two registers. It takes the first operand of `OR` twice, and its
logical shift is an arithmetic one. -/
def registerResult (x y : BitVec 32) : RegisterOp → Option (BitVec 32)
  | .or => some (x ||| x)
  | .srlv => some (y.sshiftRight (x.toNat % 32))
  | op => op.result x y

theorem execute_register (op : RegisterOp) :
    Instruction.execute ⟨registerOpCode op, rs, rt, rd, extra⟩ regs =
      setting rd (regs NextPCReg + 4)
        (registerResult (regs (gpr rs)) (regs (gpr rt)) op) := by
  cases op with
  | add =>
      simp only [registerOpCode, registerResult, Instruction.execute, RegisterOp.result,
        add_overflow]
      split <;> rfl
  | sub =>
      simp only [registerOpCode, registerResult, Instruction.execute, RegisterOp.result,
        sub_overflow]
      split <;> rfl
  | slt =>
      simp only [registerOpCode, registerResult, Instruction.execute, RegisterOp.result,
        truth_slt, setting]
  | sltu =>
      simp only [registerOpCode, registerResult, Instruction.execute, RegisterOp.result,
        truth_ult, setting]
  | sllv | srlv | srav =>
      simp only [registerOpCode, registerResult, Instruction.execute, RegisterOp.result,
        and_shiftMask, setting]
  | addu | subu | and | or | xor | nor => rfl

def shiftOpCode : ShiftOp → OpCode
  | .sll => .sll
  | .srl => .srl
  | .sra => .sra

def shiftResult (y : BitVec 32) (shamt : ℕ) : ShiftOp → BitVec 32
  | .srl => y.sshiftRight shamt
  | op => op.result y shamt

theorem execute_shift (op : ShiftOp) (shamt : Fin 32) :
    Instruction.execute ⟨shiftOpCode op, rs, rt, rd, BitVec.ofNat 32 shamt⟩ regs =
      setting rd (regs NextPCReg + 4) (some (shiftResult (regs (gpr rt)) shamt op)) := by
  have hshamt : (BitVec.ofNat 32 shamt.val).toNat = shamt.val := by
    have := shamt.isLt
    rw [BitVec.toNat_ofNat]
    omega
  cases op <;>
    simp only [shiftOpCode, shiftResult, Instruction.execute, ShiftOp.result, hshamt, setting]

def immediateOpCode : ImmediateOp → OpCode
  | .addi => .addi
  | .addiu => .addiu
  | .slti => .slti
  | .sltiu => .sltiu
  | .andi => .andi
  | .ori => .ori
  | .xori => .xori

theorem toInt_signExtend (imm : BitVec 16) : (imm.signExtend 32).toInt = imm.toInt :=
  BitVec.toInt_signExtend_of_le (by decide)

theorem signExtend_mod (imm : BitVec 16) : (imm.signExtend 32).toNat % 2 ^ 16 = imm.toNat := by
  have := imm.isLt
  rw [signExtend_eq_append, toNat_append_eq]
  omega

theorem execute_immediate (op : ImmediateOp) (imm : BitVec 16) :
    Instruction.execute ⟨immediateOpCode op, rs, rt, rd, imm.signExtend 32⟩ regs =
      setting rt (regs NextPCReg + 4) (op.result (regs (gpr rs)) imm) := by
  have hlow : imm.signExtend 32 &&& 0xffff#32 = imm.setWidth 32 := by
    rw [and_low_half (signExtend_mod imm), setWidth_eq_append]
  cases op with
  | addi =>
      -- the test of the code looks at the immediate operand where that of `ADD` looks at `rs`
      have hover := add_overflow (imm.signExtend 32) (regs (gpr rs))
      rw [toInt_signExtend, add_comm, BitVec.add_comm, BitVec.xor_comm (imm.signExtend 32) (regs _)]
        at hover
      simp only [immediateOpCode, Instruction.execute, ImmediateOp.result, hover]
      split <;> rfl
  | slti =>
      simp only [immediateOpCode, Instruction.execute, ImmediateOp.result, setting,
        ← toInt_signExtend, truth_slt]
  | sltiu =>
      simp only [immediateOpCode, Instruction.execute, ImmediateOp.result, setting, truth_ult]
  | andi | ori | xori =>
      simp only [immediateOpCode, Instruction.execute, ImmediateOp.result, setting, hlow]
  | addiu => rfl

theorem execute_lui (imm : BitVec 16) :
    Instruction.execute ⟨.lui, rs, rt, rd, imm.signExtend 32⟩ regs =
      setting rt (regs NextPCReg + 4) (some (imm ++ 0#16)) := by
  have hshift : imm.signExtend 32 <<< 16 = imm ++ 0#16 := by
    have hmod := signExtend_mod imm
    apply BitVec.eq_of_toNat_eq
    rw [toNat_append_eq, BitVec.toNat_shiftLeft, Nat.shiftLeft_eq, BitVec.toNat_ofNat]
    omega
  simp only [Instruction.execute, setting, hshift]

/-! ## `Hi` and `Lo` -/

def hiLoOpCode : HiLoOp → OpCode
  | .mult => .mult
  | .multu => .multu
  | .div => .div
  | .divu => .divu

theorem mult_words (x y : BitVec 32) (signed : Bool) (p : BitVec 64)
    (h : (mult x y signed).1 ++ (mult x y signed).2 = p) :
    (mult x y signed).1 = p.extractLsb' 32 32 ∧ (mult x y signed).2 = p.extractLsb' 0 32 := by
  subst h
  exact ⟨BitVec.extractLsb'_append_eq_left.symm, BitVec.extractLsb'_append_eq_right.symm⟩

theorem mult_eq (x y : BitVec 32) : mult x y true = HiLoOp.result x y .mult := by
  have hproduct : (mult x y true).1 ++ (mult x y true).2 = BitVec.ofInt 64 (x.toInt * y.toInt) := by
    rw [← mult_signed x y]
    exact BitVec.ofInt_toInt.symm
  obtain ⟨hhi, hlo⟩ := mult_words x y true _ hproduct
  exact Prod.ext hhi hlo

theorem multu_eq (x y : BitVec 32) : mult x y false = HiLoOp.result x y .multu := by
  have hproduct : (mult x y false).1 ++ (mult x y false).2 =
      BitVec.ofNat 64 (x.toNat * y.toNat) := by
    rw [← mult_unsigned x y, BitVec.ofNat_toNat, BitVec.setWidth_eq]
  obtain ⟨hhi, hlo⟩ := mult_words x y false _ hproduct
  exact Prod.ext hhi hlo

theorem sdiv_eq_ofInt (x y : BitVec 32) : x.sdiv y = BitVec.ofInt 32 (x.toInt.tdiv y.toInt) := by
  apply BitVec.eq_of_toInt_eq
  rw [BitVec.toInt_sdiv, BitVec.toInt_ofInt]

theorem srem_eq_ofInt (x y : BitVec 32) : x.srem y = BitVec.ofInt 32 (x.toInt.tmod y.toInt) := by
  rw [← BitVec.toInt_srem, BitVec.ofInt_toInt]

theorem udiv_eq_ofNat (x y : BitVec 32) : x / y = BitVec.ofNat 32 (x.toNat / y.toNat) := by
  rw [← BitVec.toNat_udiv, BitVec.ofNat_toNat, BitVec.setWidth_eq]

theorem umod_eq_ofNat (x y : BitVec 32) : x % y = BitVec.ofNat 32 (x.toNat % y.toNat) := by
  rw [← BitVec.toNat_umod, BitVec.ofNat_toNat, BitVec.setWidth_eq]

/-- `Hi` and `Lo` are assigned in one order or in the other. -/
theorem execute_hiLo (op : HiLoOp) (rd : Fin 32) (extra : BitVec 32) {s : State}
    (hrs : regs (gpr rs) = s.gpr rs) (hrt : regs (gpr rt) = s.gpr rt)
    (hdefined : (Instr.hiLo op rs rt).Defined s) :
    ∃ hi lo, (hi, lo) = op.result (s.gpr rs) (s.gpr rt) ∧
      (Instruction.execute ⟨hiLoOpCode op, rs, rt, rd, extra⟩ regs =
          .assign [(HiReg, hi), (LoReg, lo)] (regs NextPCReg + 4) ∨
        Instruction.execute ⟨hiLoOpCode op, rs, rt, rd, extra⟩ regs =
          .assign [(LoReg, lo), (HiReg, hi)] (regs NextPCReg + 4)) := by
  refine ⟨_, _, rfl, ?_⟩
  cases op with
  | mult =>
      refine .inl ?_
      simp only [hiLoOpCode, Instruction.execute, hrs, hrt, mult_eq, HiLoOp.result]
  | multu =>
      refine .inl ?_
      simp only [hiLoOpCode, Instruction.execute, hrs, hrt, multu_eq, HiLoOp.result]
  | div =>
      have hzero : s.gpr rt ≠ 0#32 := hdefined.1
      have hover := hdefined.2
      have hplace : ¬ (s.gpr rs = 0x80000000#32 ∧ s.gpr rt = 0xffffffff#32) := by
        rintro ⟨hmin, hneg⟩
        rw [hmin, hneg] at hover
        exact hover ⟨by decide, by decide⟩
      refine .inr ?_
      simp only [hiLoOpCode, Instruction.execute, hrs, hrt]
      rw [if_neg hzero, if_neg hplace, sdiv_eq_ofInt, srem_eq_ofInt]
  | divu =>
      have hzero : s.gpr rt ≠ 0#32 := hdefined
      refine .inr ?_
      simp only [hiLoOpCode, Instruction.execute, hrs, hrt]
      rw [if_neg hzero, udiv_eq_ofNat, umod_eq_ofNat]

/-! ## Branches -/

def signOpCode : SignOp → OpCode
  | .blez => .blez
  | .bgtz => .bgtz
  | .bltz => .bltz
  | .bgez => .bgez
  | .bltzal => .bltzal
  | .bgezal => .bgezal

theorem and_signBit_iff (x : BitVec 32) : x &&& signBit = 0#32 ↔ 0 ≤ x.toInt := by
  have hne := and_signBit_ne_zero_iff x
  rw [← BitVec.slt_zero_eq_msb, slt_zero_iff] at hne
  rw [← not_lt, ← hne, ne_eq, not_not]
  rfl

theorem sign_decode (op : SignOp) (rs : Fin 32) (offset : BitVec 16) :
    ∃ rt rd, Instruction.decode (iType op.code.1 rs op.code.2 offset) =
      ⟨signOpCode op, rs, rt, rd, offset.signExtend 32⟩ := by
  cases op with
  | blez => exact ⟨_, _, iType_decode_plain _ rfl (by decide) (by decide) rs 0 offset⟩
  | bgtz => exact ⟨_, _, iType_decode_plain _ rfl (by decide) (by decide) rs 0 offset⟩
  | bltz => exact ⟨_, _, bcond_decode rs 0 offset⟩
  | bgez => exact ⟨_, _, bcond_decode rs 1 offset⟩
  | bltzal => exact ⟨_, _, bcond_decode rs 16 offset⟩
  | bgezal => exact ⟨_, _, bcond_decode rs 17 offset⟩

theorem execute_sign (op : SignOp) (hlink : op.links = true → rs ≠ 31) :
    Instruction.execute ⟨signOpCode op, rs, rt, rd, extra⟩ regs =
      .assign (if op.links then [(gpr 31, regs NextPCReg + 4)] else [])
        (if op.taken (regs (gpr rs)) then regs NextPCReg + (extra <<< 2)
          else regs NextPCReg + 4) := by
  have hlow : ∀ x : BitVec 32, x.sle 0#32 = decide (x.toInt ≤ 0) := fun x => by
    rw [BitVec.sle_eq_decide, BitVec.toInt_zero]
  have hhigh : ∀ x : BitVec 32, (0#32).slt x = decide (0 < x.toInt) := fun x => by
    rw [BitVec.slt_eq_decide, BitVec.toInt_zero]
  cases op with
  | blez =>
      simp only [signOpCode, Instruction.execute, SignOp.links, SignOp.taken, hlow, indexToAddr]
      rfl
  | bgtz =>
      simp only [signOpCode, Instruction.execute, SignOp.links, SignOp.taken, hhigh, indexToAddr]
      rfl
  | bltz =>
      simp only [signOpCode, Instruction.execute, SignOp.links, SignOp.taken, indexToAddr, ne_eq,
        and_signBit_iff, not_le]
      rfl
  | bgez =>
      simp only [signOpCode, Instruction.execute, SignOp.links, SignOp.taken, indexToAddr,
        and_signBit_iff]
      rfl
  | bltzal | bgezal =>
      have hne : gpr rs ≠ R31 := mt gpr_inj.1 (hlink rfl)
      simp only [signOpCode, Instruction.execute, SignOp.links, SignOp.taken, indexToAddr, ne_eq,
        Function.update_of_ne hne, and_signBit_iff, not_le, decide_eq_true_eq]
      rfl

end Mips

end Nachos
