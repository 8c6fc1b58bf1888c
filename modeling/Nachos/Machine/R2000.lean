import Mathlib.Algebra.Group.Int.Defs
import Mathlib.Data.BitVec

/-!
# The R2000

The arithmetic, logic, shift, compare, branch and jump instructions of the processor: how they are
encoded in a word, and what they do to the registers, in terms of the numbers that the words stand
for. Where an operation is exact only for some operands it says so, and the register 0 is 0 by
construction. `nextPc` is the address of the instruction in the delay slot.
-/

namespace R2000

abbrev Word := BitVec 32

abbrev Reg := Fin 32

/-! ## The registers -/

structure State where
  gpr : Reg → Word
  hi : Word
  lo : Word
  pc : Word
  nextPc : Word
  gpr_zero : gpr 0 = 0

namespace State

@[ext]
theorem ext {s s' : State} (hgpr : ∀ i, i ≠ 0 → s.gpr i = s'.gpr i) (hhi : s.hi = s'.hi)
    (hlo : s.lo = s'.lo) (hpc : s.pc = s'.pc) (hnext : s.nextPc = s'.nextPc) : s = s' := by
  obtain ⟨gpr, hi, lo, pc, nextPc, hzero⟩ := s
  obtain ⟨gpr', hi', lo', pc', nextPc', hzero'⟩ := s'
  have hfun : gpr = gpr' := by
    funext i
    by_cases hi : i = 0
    · rw [hi, hzero, hzero']
    · exact hgpr i hi
  cases hfun
  cases hhi
  cases hlo
  cases hpc
  cases hnext
  rfl

/-- A write to the register 0 is lost. -/
def write (s : State) (rd : Reg) (value : Word) : State :=
  { s with
    gpr := fun i => if i = rd ∧ i ≠ 0 then value else s.gpr i
    gpr_zero := by simp [s.gpr_zero] }

theorem write_gpr (s : State) (rd : Reg) (value : Word) (i : Reg) :
    (s.write rd value).gpr i = if i = rd ∧ i ≠ 0 then value else s.gpr i := rfl

/-- The instruction in the delay slot is next, and `target` comes after it. -/
def jump (s : State) (target : Word) : State := { s with pc := s.nextPc, nextPc := target }

/-- The address after the delay slot. -/
def link (s : State) : Word := s.nextPc + 4

def advance (s : State) : State := s.jump s.link

def setHiLo (s : State) (hi lo : Word) : State := { s with hi := hi, lo := lo }

end State

/-! ## Instructions -/

inductive RegisterOp where
  | add | addu | sub | subu | and | or | xor | nor | slt | sltu | sllv | srlv | srav
  deriving DecidableEq, Repr

inductive ShiftOp where
  | sll | srl | sra
  deriving DecidableEq, Repr

inductive ImmediateOp where
  | addi | addiu | slti | sltiu | andi | ori | xori
  deriving DecidableEq, Repr

inductive HiLoOp where
  | mult | multu | div | divu
  deriving DecidableEq, Repr

/-- The branches that compare a register with 0. -/
inductive SignOp where
  | blez | bgtz | bltz | bgez | bltzal | bgezal
  deriving DecidableEq, Repr

inductive Instr where
  | register (op : RegisterOp) (rd rs rt : Reg)
  | shift (op : ShiftOp) (rd rt shamt : Fin 32)
  | immediate (op : ImmediateOp) (rt rs : Reg) (imm : BitVec 16)
  | lui (rt : Reg) (imm : BitVec 16)
  | hiLo (op : HiLoOp) (rs rt : Reg)
  | mfhi (rd : Reg)
  | mflo (rd : Reg)
  | mthi (rs : Reg)
  | mtlo (rs : Reg)
  | beq (rs rt : Reg) (offset : BitVec 16)
  | bne (rs rt : Reg) (offset : BitVec 16)
  | sign (op : SignOp) (rs : Reg) (offset : BitVec 16)
  | j (target : BitVec 26)
  | jal (target : BitVec 26)
  | jr (rs : Reg)
  | jalr (rd rs : Reg)
  deriving DecidableEq

/-! ## Encoding -/

/-- A field for a register or for a shift amount. -/
def bits (i : Fin 32) : BitVec 5 := BitVec.ofNat 5 i

def rType (rs rt rd shamt : Fin 32) (funct : BitVec 6) : Word :=
  0#6 ++ bits rs ++ bits rt ++ bits rd ++ bits shamt ++ funct

def iType (opcode : BitVec 6) (rs rt : Fin 32) (imm : BitVec 16) : Word :=
  opcode ++ bits rs ++ bits rt ++ imm

def jType (opcode : BitVec 6) (target : BitVec 26) : Word := opcode ++ target

def RegisterOp.funct : RegisterOp → BitVec 6
  | sllv => 4
  | srlv => 6
  | srav => 7
  | add => 32
  | addu => 33
  | sub => 34
  | subu => 35
  | and => 36
  | or => 37
  | xor => 38
  | nor => 39
  | slt => 42
  | sltu => 43

def ShiftOp.funct : ShiftOp → BitVec 6
  | sll => 0
  | srl => 2
  | sra => 3

def ImmediateOp.opcode : ImmediateOp → BitVec 6
  | addi => 8
  | addiu => 9
  | slti => 10
  | sltiu => 11
  | andi => 12
  | ori => 13
  | xori => 14

def HiLoOp.funct : HiLoOp → BitVec 6
  | mult => 24
  | multu => 25
  | div => 26
  | divu => 27

/-- The opcode, and the field `rt`, which tells the instructions of the opcode 1 apart. -/
def SignOp.code : SignOp → BitVec 6 × Fin 32
  | blez => (6, 0)
  | bgtz => (7, 0)
  | bltz => (1, 0)
  | bgez => (1, 1)
  | bltzal => (1, 16)
  | bgezal => (1, 17)

def Instr.encode : Instr → Word
  | register op rd rs rt => rType rs rt rd 0 op.funct
  | shift op rd rt shamt => rType 0 rt rd shamt op.funct
  | immediate op rt rs imm => iType op.opcode rs rt imm
  | lui rt imm => iType 15 0 rt imm
  | hiLo op rs rt => rType rs rt 0 0 op.funct
  | mfhi rd => rType 0 0 rd 0 16
  | mflo rd => rType 0 0 rd 0 18
  | mthi rs => rType rs 0 0 0 17
  | mtlo rs => rType rs 0 0 0 19
  | beq rs rt offset => iType 4 rs rt offset
  | bne rs rt offset => iType 5 rs rt offset
  | sign op rs offset => iType op.code.1 rs op.code.2 offset
  | j target => jType 2 target
  | jal target => jType 3 target
  | jr rs => rType rs 0 0 0 8
  | jalr rd rs => rType rs 0 rd 0 9

/-! ## Execution -/

/-- The word for a signed number, if it has one. -/
def signedWord (z : ℤ) : Option Word :=
  if -2 ^ 31 ≤ z ∧ z < 2 ^ 31 then some (BitVec.ofInt 32 z) else none

def truth (p : Prop) [Decidable p] : Word := if p then 1 else 0

/-- `none` is an overflow. -/
def RegisterOp.result (x y : Word) : RegisterOp → Option Word
  | add => signedWord (x.toInt + y.toInt)
  | addu => some (x + y)
  | sub => signedWord (x.toInt - y.toInt)
  | subu => some (x - y)
  | and => some (x &&& y)
  | or => some (x ||| y)
  | xor => some (x ^^^ y)
  | nor => some (~~~(x ||| y))
  | slt => some (truth (x.toInt < y.toInt))
  | sltu => some (truth (x.toNat < y.toNat))
  | sllv => some (y <<< (x.toNat % 32))
  | srlv => some (y >>> (x.toNat % 32))
  | srav => some (y.sshiftRight (x.toNat % 32))

def ShiftOp.result (y : Word) (shamt : ℕ) : ShiftOp → Word
  | sll => y <<< shamt
  | srl => y >>> shamt
  | sra => y.sshiftRight shamt

def ImmediateOp.result (x : Word) (imm : BitVec 16) : ImmediateOp → Option Word
  | addi => signedWord (x.toInt + imm.toInt)
  | addiu => some (x + imm.signExtend 32)
  | slti => some (truth (x.toInt < imm.toInt))
  | sltiu => some (truth (x.toNat < (imm.signExtend 32).toNat))
  | andi => some (x &&& imm.setWidth 32)
  | ori => some (x ||| imm.setWidth 32)
  | xori => some (x ^^^ imm.setWidth 32)

/-- The registers `Hi` and `Lo`. -/
def HiLoOp.result (x y : Word) : HiLoOp → Word × Word
  | mult =>
      let product := BitVec.ofInt 64 (x.toInt * y.toInt)
      (product.extractLsb' 32 32, product.extractLsb' 0 32)
  | multu =>
      let product := BitVec.ofNat 64 (x.toNat * y.toNat)
      (product.extractLsb' 32 32, product.extractLsb' 0 32)
  | div => (BitVec.ofInt 32 (x.toInt.tmod y.toInt), BitVec.ofInt 32 (x.toInt.tdiv y.toInt))
  | divu => (BitVec.ofNat 32 (x.toNat % y.toNat), BitVec.ofNat 32 (x.toNat / y.toNat))

def SignOp.taken (x : Word) : SignOp → Bool
  | blez => x.toInt ≤ 0
  | bgtz => 0 < x.toInt
  | bltz | bltzal => x.toInt < 0
  | bgez | bgezal => 0 ≤ x.toInt

/-- The instruction leaves the address after its delay slot in the register 31. -/
def SignOp.links : SignOp → Bool
  | bltzal | bgezal => true
  | _ => false

inductive Outcome where
  | overflow
  | next (s : State)

def State.set (s : State) (rd : Reg) : Option Word → Outcome
  | none => .overflow
  | some value => .next (s.write rd value).advance

def State.branch (s : State) (offset : BitVec 16) (taken : Bool) : State :=
  s.jump (if taken then s.nextPc + (offset.signExtend 32 <<< 2) else s.link)

/-- The target of a jump, in the region of its delay slot. -/
def State.target (s : State) (target : BitVec 26) : Word :=
  s.nextPc.extractLsb' 28 4 ++ target ++ 0#2

def Instr.exec (s : State) : Instr → Outcome
  | register op rd rs rt => s.set rd (op.result (s.gpr rs) (s.gpr rt))
  | shift op rd rt shamt => s.set rd (some (op.result (s.gpr rt) shamt))
  | immediate op rt rs imm => s.set rt (op.result (s.gpr rs) imm)
  | lui rt imm => s.set rt (some (imm ++ 0#16))
  | hiLo op rs rt =>
      .next (s.setHiLo (op.result (s.gpr rs) (s.gpr rt)).1
        (op.result (s.gpr rs) (s.gpr rt)).2).advance
  | mfhi rd => s.set rd (some s.hi)
  | mflo rd => s.set rd (some s.lo)
  | mthi rs => .next (s.setHiLo (s.gpr rs) s.lo).advance
  | mtlo rs => .next (s.setHiLo s.hi (s.gpr rs)).advance
  | beq rs rt offset => .next (s.branch offset (s.gpr rs = s.gpr rt))
  | bne rs rt offset => .next (s.branch offset (s.gpr rs ≠ s.gpr rt))
  | sign op rs offset =>
      let s' := s.branch offset (op.taken (s.gpr rs))
      .next (if op.links then s'.write 31 s.link else s')
  | j target => .next (s.jump (s.target target))
  | jal target => .next ((s.write 31 s.link).jump (s.target target))
  | jr rs => .next (s.jump (s.gpr rs))
  | jalr rd rs => .next ((s.write rd s.link).jump (s.gpr rs))

/-- The architecture says what the instruction does: a quotient has a divisor and a place, and the
operand of an instruction that links is not the register of the link. -/
def Instr.Defined (s : State) : Instr → Prop
  | hiLo .div rs rt =>
      s.gpr rt ≠ 0 ∧ ¬ ((s.gpr rs).toInt = -2 ^ 31 ∧ (s.gpr rt).toInt = -1)
  | hiLo .divu _ rt => s.gpr rt ≠ 0
  | sign op rs _ => op.links = true → rs ≠ 31
  | jalr rd rs => rs ≠ rd
  | _ => True

end R2000
