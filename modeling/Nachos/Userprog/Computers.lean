import Nachos.Machine.LoadsAndStores
import Nachos.Userprog.TimeSharing

/-!
# Processes are computers

To its program, a process is a computer of its own: an R2000 with a memory of the size of the
address space. It goes on with its instructions, which the kernel interrupts only where they trap;
then the kernel reads and writes its memory and its registers.
-/

namespace Nachos

namespace TimeSharing

open Lib Mips R2000

/-! ## The computer of a process -/

/-- `WriteRegister` for a general register, `HI`, `LO` or a program counter. -/
def writeRegister (s : State) (num : Fin 40) (value : BitVec 32) : State :=
  if h : num.val < 32 then s.write ⟨num, h⟩ value
  else
    { s with
      hi := if num = HiReg then value else s.hi
      lo := if num = LoReg then value else s.lo
      pc := if num = PCReg then value else s.pc
      nextPc := if num = NextPCReg then value else s.nextPc }

/-- The computer has gone from `c₀` to `c` in the events, the last one first. -/
inductive Follows (c₀ : Computer) : List Event → Computer → Prop where
  | start : Follows c₀ [] c₀
  | instruction {es : List Event} {c c' : Computer} (h : Follows c₀ es c)
      (hends : c.Ends (.next c')) : Follows c₀ (.instruction :: es) c'
  | trap {es : List Event} {c : Computer} {which : Trap} (h : Follows c₀ es c)
      (hends : c.Ends (.trap which)) : Follows c₀ (.trap (trapType which) :: es) c
  | readMem {es : List Event} {c : Computer} {addr value : BitVec 32} {size : ℕ}
      (h : Follows c₀ es c) (hfaults : ¬ c.Faults addr size)
      (hvalue : load c.memory addr.toNat size = .ok value) :
      Follows c₀ (.readMem addr size value :: es) c
  | writeMem {es : List Event} {c : Computer} {addr : BitVec 32} {size : ℕ} (h : Follows c₀ es c)
      (value : BitVec 32) (hfaults : ¬ c.Faults addr size) :
      Follows c₀ (.writeMem addr size value :: es)
        { c with memory := c.memory.put addr.toNat size value }
  | writeRegister {es : List Event} {c : Computer} (h : Follows c₀ es c) (num : Fin 40)
      (value : BitVec 32) : Follows c₀ (.writeRegister num value :: es)
        { c with state := writeRegister c.state num value }

/-! ## One event -/

variable {q q' : Processor} {c c₀ : Computer} {e : Event} {es : List Event}

end TimeSharing

end Nachos
