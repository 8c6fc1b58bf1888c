import Nachos.Machine.Translate
import Mathlib.Data.Fin.Basic

/-!
# The MIPS simulation

`Machine::OneInstruction` of `mipssim.cc` with `Decode`, `Mult` and `DelayedLoad`, and
`Machine::RaiseException` of `machine.cc` up to the call of `ExceptionHandler`. Registers and
instruction words are 32-bit words, and the operations of C on them wrap around. The `switch` of
`OneInstruction` reads the registers it finds and says what is to be done: an exception, some
assignments to registers, or accesses to memory; the rest of `OneInstruction` does it.
-/

namespace Nachos

namespace Mips

def numPhysPages : ℕ := 32

abbrev Registers := Fin 40 → BitVec 32

def HiReg : Fin 40 := 32

def LoReg : Fin 40 := 33

def PCReg : Fin 40 := 34

def NextPCReg : Fin 40 := 35

def PrevPCReg : Fin 40 := 36

def LoadReg : Fin 40 := 37

def LoadValueReg : Fin 40 := 38

def BadVAddrReg : Fin 40 := 39

/-- The numerals name the general registers too. -/
instance (priority := high) neZero_numGPRegs : @NeZero ℕ Zero.ofOfNat0 32 := ⟨by decide⟩

/-- The general registers are the first of the register file. -/
def gpr (i : Fin 32) : Fin 40 := i.castLE (by decide)

def R31 : Fin 40 := gpr 31

/-! ## Decoding -/

/-- `SPECIAL` and `BCOND` stand in `opTable` only. -/
inductive OpCode where
  | add | addi | addiu | addu | and | andi | beq | bgez | bgezal | bgtz | blez | bltz | bltzal | bne
  | div | divu | j | jal | jalr | jr | lb | lbu | lh | lhu | lui | lw | lwl | lwr
  | mfhi | mflo | mthi | mtlo | mult | multu | nor | or | ori | rfe | sb | sh
  | sll | sllv | slt | slti | sltiu | sltu | sra | srav | srl | srlv | sub | subu
  | sw | swl | swr | xor | xori | syscall | unimp | res
  | special | bcond
  deriving DecidableEq, Repr

inductive Format where
  | ifmt
  | jfmt
  | rfmt
  deriving DecidableEq, Repr

def opTable : Vector (OpCode × Format) 64 := #v[
  (.special, .rfmt), (.bcond, .ifmt), (.j, .jfmt), (.jal, .jfmt),
  (.beq, .ifmt), (.bne, .ifmt), (.blez, .ifmt), (.bgtz, .ifmt),
  (.addi, .ifmt), (.addiu, .ifmt), (.slti, .ifmt), (.sltiu, .ifmt),
  (.andi, .ifmt), (.ori, .ifmt), (.xori, .ifmt), (.lui, .ifmt),
  (.unimp, .ifmt), (.unimp, .ifmt), (.unimp, .ifmt), (.unimp, .ifmt),
  (.res, .ifmt), (.res, .ifmt), (.res, .ifmt), (.res, .ifmt),
  (.res, .ifmt), (.res, .ifmt), (.res, .ifmt), (.res, .ifmt),
  (.res, .ifmt), (.res, .ifmt), (.res, .ifmt), (.res, .ifmt),
  (.lb, .ifmt), (.lh, .ifmt), (.lwl, .ifmt), (.lw, .ifmt),
  (.lbu, .ifmt), (.lhu, .ifmt), (.lwr, .ifmt), (.res, .ifmt),
  (.sb, .ifmt), (.sh, .ifmt), (.swl, .ifmt), (.sw, .ifmt),
  (.res, .ifmt), (.res, .ifmt), (.swr, .ifmt), (.res, .ifmt),
  (.unimp, .ifmt), (.unimp, .ifmt), (.unimp, .ifmt), (.unimp, .ifmt),
  (.res, .ifmt), (.res, .ifmt), (.res, .ifmt), (.res, .ifmt),
  (.unimp, .ifmt), (.unimp, .ifmt), (.unimp, .ifmt), (.unimp, .ifmt),
  (.res, .ifmt), (.res, .ifmt), (.res, .ifmt), (.res, .ifmt)]

def specialTable : Vector OpCode 64 := #v[
  .sll, .res, .srl, .sra, .sllv, .res, .srlv, .srav,
  .jr, .jalr, .res, .res, .syscall, .unimp, .res, .res,
  .mfhi, .mthi, .mflo, .mtlo, .res, .res, .res, .res,
  .mult, .multu, .div, .divu, .res, .res, .res, .res,
  .add, .addu, .sub, .subu, .and, .or, .xor, .nor,
  .res, .res, .slt, .sltu, .res, .res, .res, .res,
  .res, .res, .res, .res, .res, .res, .res, .res,
  .res, .res, .res, .res, .res, .res, .res, .res]

structure Instruction where
  opCode : OpCode
  rs : Fin 32
  rt : Fin 32
  rd : Fin 32
  extra : BitVec 32
  deriving DecidableEq

/-- The bits of `value` from `lo` on. -/
def field (value : BitVec 32) (lo width : ℕ) : Fin (2 ^ width) := (value.extractLsb' lo width).toFin

/-- `extra` of `Decode`. -/
def extraOf (value : BitVec 32) : Format → BitVec 32
  | .ifmt =>
      let extra := value &&& 0xffff#32
      if extra &&& 0x8000#32 ≠ 0#32 then extra ||| 0xffff0000#32 else extra
  | .rfmt => (value >>> 6) &&& 0x1f#32
  | .jfmt => value &&& 0x3ffffff#32

/-- `opCode` of `Decode`, where `op` is the entry of `opTable`. -/
def opCodeOf (value : BitVec 32) (op : OpCode) : OpCode :=
  if op = .special then
    specialTable.get (field value 0 6)
  else if op = .bcond then
    let i := value &&& 0x1f0000#32
    if i = 0#32 then .bltz
    else if i = 0x10000#32 then .bgez
    else if i = 0x100000#32 then .bltzal
    else if i = 0x110000#32 then .bgezal
    else .unimp
  else op

/-- `Instruction::Decode`. -/
def Instruction.decode (value : BitVec 32) : Instruction :=
  let opPtr := opTable.get (field value 26 6)
  { opCode := opCodeOf value opPtr.1
    rs := field value 21 5
    rt := field value 16 5
    rd := field value 11 5
    extra := extraOf value opPtr.2 }

/-! ## Multiplication -/

/-- The loop of `Mult`, with the iterations that are left. -/
def multLoop : ℕ → BitVec 32 → BitVec 32 → BitVec 32 → BitVec 32 → BitVec 32 → BitVec 32 × BitVec 32
  | 0, _, _, _, lo, hi => (hi, lo)
  | n + 1, a, bLo, bHi, lo, hi =>
      let odd := a &&& 1#32 ≠ 0#32
      let lo' := if odd then lo + bLo else lo
      let carry : BitVec 32 := if lo'.ult bLo then 1#32 else 0#32
      let hi' := if odd then hi + carry + bHi else hi
      if odd ∧ a &&& 0xfffffffe#32 = 0#32 then
        (hi', lo')
      else
        let bHi' := bHi <<< 1
        let bHi' := if bLo &&& 0x80000000#32 ≠ 0#32 then bHi' ||| 1#32 else bHi'
        multLoop n (a.sshiftRight 1) (bLo <<< 1) bHi' lo' hi'

/-- `Mult`: the words that it stores at `hiPtr` and `loPtr`. -/
def mult (a b : BitVec 32) (signedArith : Bool) : BitVec 32 × BitVec 32 :=
  if a = 0#32 ∨ b = 0#32 then
    (0#32, 0#32)
  else
    let negA := signedArith && a.slt 0#32
    let negB := signedArith && b.slt 0#32
    let product := multLoop 32 (if negA then -a else a) (if negB then -b else b) 0#32 0#32 0#32
    if negA != negB then
      let hi := ~~~product.1
      let lo := ~~~product.2 + 1#32
      (if lo = 0#32 then hi + 1#32 else hi, lo)
    else
      product

/-! ## The instructions -/

/-- What the `switch` of `OneInstruction` does. A load leaves `nextLoadValue` of the word that it
reads for the register `rt`, and a merge writes back what it makes of the word at its address. -/
inductive Execution where
  | stop (fault : Fault)
  | raise (which : ExceptionType) (badVAddr : BitVec 32)
  | assign (writes : List (Fin 40 × BitVec 32)) (pcAfter : BitVec 32)
  | load (addr : BitVec 32) (size : ℕ) (rt : Fin 32) (nextLoadValue : BitVec 32 → BitVec 32)
  | store (addr : BitVec 32) (size : ℕ) (value : BitVec 32)
  | merge (addr : BitVec 32) (value : BitVec 32 → BitVec 32)

def signBit : BitVec 32 := 0x80000000#32

def indexToAddr (x : BitVec 32) : BitVec 32 := x <<< 2

/-- The value of the register `rt` that `LWL` and `LWR` start from: that of the pending load if it
is for this register. -/
def merged (r : Registers) (rt : Fin 32) : BitVec 32 :=
  if r LoadReg = BitVec.ofNat 32 rt then r LoadValueReg else r (gpr rt)

/-- The `switch` of `OneInstruction`, on the registers `r`. -/
def Instruction.execute (instr : Instruction) (r : Registers) : Execution :=
  let rs := r (gpr instr.rs)
  let rt := r (gpr instr.rt)
  let extra := instr.extra
  let tmp := rs + extra
  let link := r NextPCReg + 4
  -- an instruction that jumps puts another value into `pcAfter`
  let pcAfter := r NextPCReg + 4
  let target := r NextPCReg + indexToAddr extra
  let toRd := fun value => Execution.assign [(gpr instr.rd, value)] pcAfter
  let toRt := fun value => Execution.assign [(gpr instr.rt, value)] pcAfter
  let jumpIf := fun (taken : Bool) => Execution.assign [] (if taken then target else pcAfter)
  match instr.opCode with
  | .add =>
      let sum := rs + rt
      if (rs ^^^ rt) &&& signBit = 0#32 ∧ (rs ^^^ sum) &&& signBit ≠ 0#32 then .raise .overflow 0
      else toRd sum
  | .addi =>
      let sum := rs + extra
      if (rs ^^^ extra) &&& signBit = 0#32 ∧ (extra ^^^ sum) &&& signBit ≠ 0#32 then
        .raise .overflow 0
      else toRt sum
  | .addiu => toRt (rs + extra)
  | .addu => toRd (rs + rt)
  | .and => toRd (rs &&& rt)
  | .andi => toRt (rs &&& (extra &&& 0xffff#32))
  | .beq => jumpIf (rs = rt)
  | .bgezal =>
      -- the test reads the registers with the link in them
      let linked := Function.update r R31 link
      .assign [(R31, link)] (if linked (gpr instr.rs) &&& signBit = 0#32 then target else pcAfter)
  | .bgez => jumpIf (rs &&& signBit = 0#32)
  | .bgtz => jumpIf ((0#32).slt rs)
  | .blez => jumpIf (rs.sle 0#32)
  | .bltzal =>
      let linked := Function.update r R31 link
      .assign [(R31, link)] (if linked (gpr instr.rs) &&& signBit ≠ 0#32 then target else pcAfter)
  | .bltz => jumpIf (rs &&& signBit ≠ 0#32)
  | .bne => jumpIf (rs ≠ rt)
  | .div =>
      if rt = 0#32 then .assign [(LoReg, 0), (HiReg, 0)] pcAfter
      -- the quotient has no place in an `int`, and the host traps
      else if rs = 0x80000000#32 ∧ rt = 0xffffffff#32 then .stop .divideError
      else .assign [(LoReg, rs.sdiv rt), (HiReg, rs.srem rt)] pcAfter
  | .divu =>
      if rt = 0#32 then .assign [(LoReg, 0), (HiReg, 0)] pcAfter
      else .assign [(LoReg, rs / rt), (HiReg, rs % rt)] pcAfter
  | .jal => .assign [(R31, link)] ((pcAfter &&& 0xf0000000#32) ||| indexToAddr extra)
  | .j => .assign [] ((pcAfter &&& 0xf0000000#32) ||| indexToAddr extra)
  | .jalr =>
      let linked := Function.update r (gpr instr.rd) link
      .assign [(gpr instr.rd, link)] (linked (gpr instr.rs))
  | .jr => .assign [] rs
  | .lb => .load tmp 1 instr.rt fun value =>
      if value &&& 0x80#32 ≠ 0#32 then value ||| 0xffffff00#32 else value &&& 0xff#32
  | .lbu => .load tmp 1 instr.rt fun value => value &&& 0xff#32
  | .lh =>
      if tmp &&& 1#32 ≠ 0#32 then .raise .addressError tmp
      else .load tmp 2 instr.rt fun value =>
        if value &&& 0x8000#32 ≠ 0#32 then value ||| 0xffff0000#32 else value &&& 0xffff#32
  | .lhu =>
      if tmp &&& 1#32 ≠ 0#32 then .raise .addressError tmp
      else .load tmp 2 instr.rt fun value => value &&& 0xffff#32
  | .lui => toRt (extra <<< 16)
  | .lw =>
      if tmp &&& 3#32 ≠ 0#32 then .raise .addressError tmp
      else .load tmp 4 instr.rt fun value => value
  | .lwl =>
      if tmp &&& 3#32 ≠ 0#32 then .stop .assertion
      else
        let nextLoadValue := merged r instr.rt
        .load tmp 4 instr.rt fun value =>
          if tmp &&& 3#32 = 0#32 then value
          else if tmp &&& 3#32 = 1#32 then (nextLoadValue &&& 0xff#32) ||| (value <<< 8)
          else if tmp &&& 3#32 = 2#32 then (nextLoadValue &&& 0xffff#32) ||| (value <<< 16)
          else (nextLoadValue &&& 0xffffff#32) ||| (value <<< 24)
  | .lwr =>
      if tmp &&& 3#32 ≠ 0#32 then .stop .assertion
      else
        let nextLoadValue := merged r instr.rt
        .load tmp 4 instr.rt fun value =>
          if tmp &&& 3#32 = 0#32 then
            (nextLoadValue &&& 0xffffff00#32) ||| (value.sshiftRight 24 &&& 0xff#32)
          else if tmp &&& 3#32 = 1#32 then
            (nextLoadValue &&& 0xffff0000#32) ||| (value.sshiftRight 16 &&& 0xffff#32)
          else if tmp &&& 3#32 = 2#32 then
            (nextLoadValue &&& 0xff000000#32) ||| (value.sshiftRight 8 &&& 0xffffff#32)
          else value
  | .mfhi => toRd (r HiReg)
  | .mflo => toRd (r LoReg)
  | .mthi => .assign [(HiReg, rs)] pcAfter
  | .mtlo => .assign [(LoReg, rs)] pcAfter
  | .mult => .assign [(HiReg, (mult rs rt true).1), (LoReg, (mult rs rt true).2)] pcAfter
  | .multu => .assign [(HiReg, (mult rs rt false).1), (LoReg, (mult rs rt false).2)] pcAfter
  | .nor => toRd (~~~(rs ||| rt))
  -- both operands are `rs`
  | .or => toRd (rs ||| rs)
  | .ori => toRt (rs ||| (extra &&& 0xffff#32))
  | .sb => .store tmp 1 rt
  | .sh => .store tmp 2 rt
  | .sll => toRd (rt <<< extra.toNat)
  | .sllv => toRd (rt <<< (rs &&& 0x1f#32).toNat)
  | .slt => toRd (if rs.slt rt then 1 else 0)
  | .slti => toRt (if rs.slt extra then 1 else 0)
  | .sltiu => toRt (if rs.ult extra then 1 else 0)
  | .sltu => toRd (if rs.ult rt then 1 else 0)
  | .sra => toRd (rt.sshiftRight extra.toNat)
  | .srav => toRd (rt.sshiftRight (rs &&& 0x1f#32).toNat)
  -- the shift of an `int` keeps its sign
  | .srl => toRd (rt.sshiftRight extra.toNat)
  | .srlv => toRd (rt.sshiftRight (rs &&& 0x1f#32).toNat)
  | .sub =>
      let diff := rs - rt
      if (rs ^^^ rt) &&& signBit ≠ 0#32 ∧ (rs ^^^ diff) &&& signBit ≠ 0#32 then .raise .overflow 0
      else toRd diff
  | .subu => toRd (rs - rt)
  | .sw => .store tmp 4 rt
  | .swl =>
      if tmp &&& 3#32 ≠ 0#32 then .stop .assertion
      else .merge (tmp &&& ~~~3#32) fun value =>
        if tmp &&& 3#32 = 0#32 then rt
        else if tmp &&& 3#32 = 1#32 then
          (value &&& 0xff000000#32) ||| (rt.sshiftRight 8 &&& 0xffffff#32)
        else if tmp &&& 3#32 = 2#32 then
          (value &&& 0xffff0000#32) ||| (rt.sshiftRight 16 &&& 0xffff#32)
        else (value &&& 0xffffff00#32) ||| (rt.sshiftRight 24 &&& 0xff#32)
  | .swr =>
      if tmp &&& 3#32 ≠ 0#32 then .stop .assertion
      else .merge (tmp &&& ~~~3#32) fun value =>
        if tmp &&& 3#32 = 0#32 then (value &&& 0xffffff#32) ||| (rt <<< 24)
        else if tmp &&& 3#32 = 1#32 then (value &&& 0xffff#32) ||| (rt <<< 16)
        else if tmp &&& 3#32 = 2#32 then (value &&& 0xff#32) ||| (rt <<< 8)
        else rt
  | .syscall => .raise .syscall 0
  | .xor => toRd (rs ^^^ rt)
  | .xori => toRt (rs ^^^ (extra &&& 0xffff#32))
  | .res | .unimp => .raise .illegalInstr 0
  -- `Decode` leaves none of these
  | .rfe | .special | .bcond => .stop .assertion

/-! ## The machine -/

structure Machine where
  registers : Registers
  mainMemory : ℕ → Byte
  pageTable : ℕ → TranslationEntry
  pageTableSize : ℕ

/-- `Machine::DelayedLoad`. The register of the pending load is an index of the host's array. -/
def delayedLoad (r : Registers) (nextReg nextValue : BitVec 32) : Except Fault Registers :=
  if h : (r LoadReg).toNat < 40 then
    let loaded := Function.update r ⟨(r LoadReg).toNat, h⟩ (r LoadValueReg)
    .ok (Function.update (Function.update (Function.update loaded LoadReg nextReg)
      LoadValueReg nextValue) 0 0)
  else
    .error .wildAddress

/-- How `OneInstruction` ends: the instruction is done, or `RaiseException` has called
`ExceptionHandler`, with the machine as the handler finds it. -/
inductive Ending where
  | finished (m : Machine)
  | exception (which : ExceptionType) (badVAddr : BitVec 32) (m : Machine)

namespace Machine

/-- `Machine::ReadMem`. It returns `FALSE` after an exception at `addr`. -/
def readMem (m : Machine) (addr : BitVec 32) (size : ℕ) :
    Except Fault (Except ExceptionType (BitVec 32 × Machine)) :=
  match translate numPhysPages m.pageTable m.pageTableSize addr size false with
  | .error fault => .error fault
  | .ok (.exception which) => .ok (.error which)
  | .ok (.physical physAddr entry) =>
      match load m.mainMemory physAddr size with
      | .error fault => .error fault
      | .ok value =>
          .ok (.ok (value, { m with pageTable := Function.update m.pageTable (vpnOf addr) entry }))

/-- `Machine::WriteMem`. -/
def writeMem (m : Machine) (addr : BitVec 32) (size : ℕ) (value : BitVec 32) :
    Except Fault (Except ExceptionType Machine) :=
  match translate numPhysPages m.pageTable m.pageTableSize addr size true with
  | .error fault => .error fault
  | .ok (.exception which) => .ok (.error which)
  | .ok (.physical physAddr entry) =>
      match store m.mainMemory physAddr value size with
      | .error fault => .error fault
      | .ok mainMemory =>
          .ok (.ok { m with
            mainMemory := mainMemory
            pageTable := Function.update m.pageTable (vpnOf addr) entry })

/-- `Machine::RaiseException`, up to the call of `ExceptionHandler`. -/
def raiseException (m : Machine) (which : ExceptionType) (badVAddr : BitVec 32) :
    Except Fault Ending :=
  match delayedLoad (Function.update m.registers BadVAddrReg badVAddr) 0 0 with
  | .error fault => .error fault
  | .ok r => .ok (.exception which badVAddr { m with registers := r })

/-- The end of `OneInstruction`, after the `switch`. -/
def finish (m : Machine) (nextLoadReg nextLoadValue pcAfter : BitVec 32) : Except Fault Ending :=
  match delayedLoad m.registers nextLoadReg nextLoadValue with
  | .error fault => .error fault
  | .ok r =>
      let r := Function.update r PrevPCReg (r PCReg)
      let r := Function.update r PCReg (r NextPCReg)
      .ok (.finished { m with registers := Function.update r NextPCReg pcAfter })

/-- Assignments to registers, in their order. -/
def assign (m : Machine) (writes : List (Fin 40 × BitVec 32)) : Machine :=
  { m with registers := writes.foldl (fun r w => Function.update r w.1 w.2) m.registers }

/-- `if (!machine->ReadMem(addr, size, &value)) return;` and what comes then. -/
def reading (m : Machine) (addr : BitVec 32) (size : ℕ)
    (next : BitVec 32 → Machine → Except Fault Ending) : Except Fault Ending :=
  match m.readMem addr size with
  | .error fault => .error fault
  | .ok (.error which) => m.raiseException which addr
  | .ok (.ok (value, m')) => next value m'

/-- `if (!machine->WriteMem(addr, size, value)) return;` and what comes then. -/
def writing (m : Machine) (addr : BitVec 32) (size : ℕ) (value : BitVec 32)
    (next : Machine → Except Fault Ending) : Except Fault Ending :=
  match m.writeMem addr size value with
  | .error fault => .error fault
  | .ok (.error which) => m.raiseException which addr
  | .ok (.ok m') => next m'

/-- `OneInstruction` from the `switch` on. -/
def perform (m : Machine) : Execution → Except Fault Ending
  | .stop fault => .error fault
  | .raise which badVAddr => m.raiseException which badVAddr
  | .assign writes pcAfter => (m.assign writes).finish 0 0 pcAfter
  | .load addr size rt nextLoadValue => m.reading addr size fun value m' =>
      m'.finish (BitVec.ofNat 32 rt) (nextLoadValue value) (m'.registers NextPCReg + 4)
  | .store addr size value => m.writing addr size value fun m' =>
      m'.finish 0 0 (m'.registers NextPCReg + 4)
  | .merge addr value => m.reading addr 4 fun old m' => m'.writing addr 4 (value old) fun m'' =>
      m''.finish 0 0 (m''.registers NextPCReg + 4)

/-- `Machine::OneInstruction`. -/
def oneInstruction (m : Machine) : Except Fault Ending :=
  m.reading (m.registers PCReg) 4 fun raw m' =>
    m'.perform ((Instruction.decode raw).execute m'.registers)

end Machine

end Mips

end Nachos
