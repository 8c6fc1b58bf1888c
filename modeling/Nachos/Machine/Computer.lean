import Nachos.Machine.R2000

/-!
# Computers

The R2000 with a memory: its loads and stores, its system call, and how the instruction at the
program counter ends. A memory is an array of bytes, in which the low byte of a number comes first.
A load gives its register the value at once; a program that does not use the register in the
instruction after the load cannot tell.
-/

namespace R2000

/-! ## Memory -/

abbrev Memory := ℕ → BitVec 8

namespace Memory

def half (mem : Memory) (a : ℕ) : BitVec 16 := mem (a + 1) ++ mem a

def word (mem : Memory) (a : ℕ) : Word := mem (a + 3) ++ mem (a + 2) ++ mem (a + 1) ++ mem a

/-- The `n` low bytes of `value` are put at `a`. -/
def put (mem : Memory) (a n : ℕ) (value : Word) : Memory := fun b =>
  if a ≤ b ∧ b < a + n then value.extractLsb' (8 * (b - a)) 8 else mem b

end Memory

/-! ## Commands -/

inductive LoadOp where
  | lb | lbu | lh | lhu | lw
  deriving DecidableEq, Repr

inductive StoreOp where
  | sb | sh | sw
  deriving DecidableEq, Repr

inductive Command where
  | plain (i : Instr)
  | load (op : LoadOp) (rt base : Reg) (offset : BitVec 16)
  | store (op : StoreOp) (rt base : Reg) (offset : BitVec 16)
  | syscall (code : BitVec 20)
  deriving DecidableEq

def LoadOp.opcode : LoadOp → BitVec 6
  | lb => 32
  | lh => 33
  | lw => 35
  | lbu => 36
  | lhu => 37

def StoreOp.opcode : StoreOp → BitVec 6
  | sb => 40
  | sh => 41
  | sw => 43

def Command.encode : Command → Word
  | plain i => i.encode
  | load op rt base offset => iType op.opcode base rt offset
  | store op rt base offset => iType op.opcode base rt offset
  | syscall code => 0#6 ++ code ++ 12#6

def LoadOp.size : LoadOp → ℕ
  | lb | lbu => 1
  | lh | lhu => 2
  | lw => 4

def StoreOp.size : StoreOp → ℕ
  | sb => 1
  | sh => 2
  | sw => 4

def LoadOp.result (mem : Memory) (a : ℕ) : LoadOp → Word
  | lb => (mem a).signExtend 32
  | lbu => (mem a).setWidth 32
  | lh => (mem.half a).signExtend 32
  | lhu => (mem.half a).setWidth 32
  | lw => mem.word a

/-! ## Execution -/

structure Computer where
  state : State
  memory : Memory
  size : ℕ

inductive Trap where
  | overflow
  | addressError
  | syscall
  deriving DecidableEq, Repr

inductive Result where
  | next (c : Computer)
  | trap (which : Trap)

namespace Computer

/-- The computer has an address error for `n` bytes at the address. -/
def Faults (c : Computer) (address : Word) (n : ℕ) : Prop :=
  address.toNat % n ≠ 0 ∨ c.size ≤ address.toNat

instance (c : Computer) (address : Word) (n : ℕ) : Decidable (c.Faults address n) :=
  inferInstanceAs (Decidable (_ ∨ _))

def address (c : Computer) (base : Reg) (offset : BitVec 16) : Word :=
  c.state.gpr base + offset.signExtend 32

/-- An instruction that leaves the memory alone has been executed. -/
def after (c : Computer) : Outcome → Result
  | .overflow => .trap .overflow
  | .next s => .next { c with state := s }

end Computer

def Command.exec (c : Computer) : Command → Result
  | plain i => c.after (i.exec c.state)
  | load op rt base offset =>
      let a := c.address base offset
      if c.Faults a op.size then .trap .addressError
      else .next { c with state := (c.state.write rt (op.result c.memory a.toNat)).advance }
  | store op rt base offset =>
      let a := c.address base offset
      if c.Faults a op.size then .trap .addressError
      else .next { c with
        state := c.state.advance
        memory := c.memory.put a.toNat op.size (c.state.gpr rt) }
  | syscall _ => .trap .syscall

def Command.Defined (c : Computer) : Command → Prop
  | plain i => i.Defined c.state
  | _ => True

/-- How the instruction at the program counter ends. -/
inductive Computer.Ends (c : Computer) : Result → Prop where
  | unfetched (hfaults : c.Faults c.state.pc 4) : c.Ends (.trap .addressError)
  | command (k : Command) (hfaults : ¬ c.Faults c.state.pc 4)
      (hword : c.memory.word c.state.pc.toNat = k.encode) (hdefined : k.Defined c) :
      c.Ends (k.exec c)

end R2000
