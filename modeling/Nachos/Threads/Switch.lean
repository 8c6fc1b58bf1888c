import Nachos.Lib.I386
import Mathlib.Data.Finset.Insert
import Mathlib.Data.Set.Basic

/-!
# Context switches on the i386

`SWITCH` and `ThreadRoot` of `switch.s` for `HOST_i386`, and `Thread::StackAllocate`. The registers
of a thread that does not run are in its `Thread` object, and its return address is on its stack.
-/

namespace Nachos

namespace Switch

open I386

/-! ## The code -/

/-- The offsets of the registers from the beginning of the thread object, in bytes. -/
def offset : Reg → Word
  | .esp => 0
  | .eax => 4
  | .ebx => 8
  | .ecx => 12
  | .edx => 16
  | .ebp => 20
  | .esi => 24
  | .edi => 28

def PC : Word := 32

/-- `SWITCH`, with the address of `_eax_save`. -/
def switchCode (eaxSave : Word) : List Instr := [
  .movl (.reg .eax) (.abs eaxSave),
  .movl (.disp 4 .esp) (.reg .eax),
  .movl (.reg .ebx) (.disp (offset .ebx) .eax),
  .movl (.reg .ecx) (.disp (offset .ecx) .eax),
  .movl (.reg .edx) (.disp (offset .edx) .eax),
  .movl (.reg .esi) (.disp (offset .esi) .eax),
  .movl (.reg .edi) (.disp (offset .edi) .eax),
  .movl (.reg .ebp) (.disp (offset .ebp) .eax),
  .movl (.reg .esp) (.disp (offset .esp) .eax),
  .movl (.abs eaxSave) (.reg .ebx),
  .movl (.reg .ebx) (.disp (offset .eax) .eax),
  .movl (.disp 0 .esp) (.reg .ebx),
  .movl (.reg .ebx) (.disp PC .eax),
  .movl (.disp 8 .esp) (.reg .eax),
  .movl (.disp (offset .eax) .eax) (.reg .ebx),
  .movl (.reg .ebx) (.abs eaxSave),
  .movl (.disp (offset .ebx) .eax) (.reg .ebx),
  .movl (.disp (offset .ecx) .eax) (.reg .ecx),
  .movl (.disp (offset .edx) .eax) (.reg .edx),
  .movl (.disp (offset .esi) .eax) (.reg .esi),
  .movl (.disp (offset .edi) .eax) (.reg .edi),
  .movl (.disp (offset .ebp) .eax) (.reg .ebp),
  .movl (.disp (offset .esp) .eax) (.reg .esp),
  .movl (.disp PC .eax) (.reg .eax),
  .movl (.reg .eax) (.disp 4 .esp),
  .movl (.abs eaxSave) (.reg .eax)]

/-- `SWITCH(t1, t2)` from its first instruction on, with its `ret`: where it returns to. -/
def SWITCH (eaxSave : Word) (s : State) : Option (Word × State) :=
  match run (switchCode eaxSave) s with
  | none => none
  | some s' => s'.pop

/-- `StackSize`, in words. -/
def StackSize : ℕ := 4 * 1024

def STACK_FENCEPOST : Word := 0xdeadbeef

/-- The addresses of the routines that a new thread gets. -/
structure Routines where
  threadRoot : Word
  interruptEnable : Word
  threadFinish : Word

/-- `Thread::StackAllocate` for the thread `t`, with its new stack at `stack`. -/
def stackAllocate (rt : Routines) (t stack func arg : Word) (mem : Word → Word) : Word → Word :=
  let stackTop := stack + BitVec.ofNat 32 (4 * (StackSize - 4)) - 4
  let mem := Function.update mem stackTop rt.threadRoot
  let mem := Function.update mem (t + offset .esp) stackTop
  let mem := Function.update mem stack STACK_FENCEPOST
  let mem := Function.update mem (t + PC) rt.threadRoot
  let mem := Function.update mem (t + offset .ecx) rt.interruptEnable
  let mem := Function.update mem (t + offset .esi) func
  let mem := Function.update mem (t + offset .edx) arg
  Function.update mem (t + offset .edi) rt.threadFinish

/-- `ThreadRoot`. -/
def threadRootCode : List Instr := [
  .pushl .ebp,
  .movl (.reg .esp) (.reg .ebp),
  .pushl .edx,
  .call .ecx,
  .call .esi,
  .call .edi,
  .movl (.reg .ebp) (.reg .esp),
  .popl .ebp,
  .ret]

/-! ## What `SWITCH` does -/

/-- The words of the object `t` in which its registers are saved. -/
def Saved (t a : Word) : Prop := (∃ r, a = t + offset r) ∨ a = t + PC

theorem offset_injective : Function.Injective offset := by
  intro r r' h
  revert h
  cases r <;> cases r' <;> decide

theorem aligned_offset (r : Reg) : Aligned (offset r) := by
  cases r <;> decide

theorem offset_ne_PC (r : Reg) : offset r ≠ PC := by
  cases r <;> decide

theorem saved_offset (t : Word) (r : Reg) : Saved t (t + offset r) := .inl ⟨r, rfl⟩

theorem saved_PC (t : Word) : Saved t (t + PC) := .inr rfl

/-- The registers in the order in which they are saved, and in which they are restored. -/
def calleeRegs : List Reg := [.ebx, .ecx, .edx, .esi, .edi, .ebp, .esp]

theorem mem_calleeRegs {r : Reg} : r ∈ calleeRegs ↔ r ≠ .eax := by
  cases r <;> decide

def saveCode (eaxSave : Word) : List Instr :=
  [.movl (.reg .eax) (.abs eaxSave), .movl (.disp 4 .esp) (.reg .eax)] ++
    storing offset calleeRegs ++
    [.movl (.abs eaxSave) (.reg .ebx), .movl (.reg .ebx) (.disp (offset .eax) .eax),
      .movl (.disp 0 .esp) (.reg .ebx), .movl (.reg .ebx) (.disp PC .eax)]

def restoreCode (eaxSave : Word) : List Instr :=
  [.movl (.disp 8 .esp) (.reg .eax), .movl (.disp (offset .eax) .eax) (.reg .ebx),
    .movl (.reg .ebx) (.abs eaxSave)] ++
    loading offset calleeRegs ++
    [.movl (.disp PC .eax) (.reg .eax), .movl (.reg .eax) (.disp 4 .esp),
      .movl (.abs eaxSave) (.reg .eax)]

theorem switchCode_eq (eaxSave : Word) :
    switchCode eaxSave = saveCode eaxSave ++ restoreCode eaxSave := rfl

variable {eaxSave t u : Word} {s : State}

/-- The first half: the registers and the return address are in the object of `t`. -/
theorem run_saveCode (hsave : Aligned eaxSave) (hesp : Aligned (s.reg .esp))
    (ht : s.mem (s.reg .esp + 4) = t) (hobj : Aligned t)
    (hne : s.reg .esp ≠ eaxSave) (hne' : s.reg .esp + 4 ≠ eaxSave) (hframe : ¬ Saved t (s.reg .esp))
    (hout : ¬ Saved t eaxSave) :
    ∃ s', run (saveCode eaxSave) s = some s' ∧ s'.reg .esp = s.reg .esp ∧
      (∀ r, s'.mem (t + offset r) = s.reg r) ∧ s'.mem (t + PC) = s.mem (s.reg .esp) ∧
        ∀ a, a ≠ eaxSave → ¬ Saved t a → s'.mem a = s.mem a := by
  have hplace : ∀ r, Aligned (t + offset r) := fun r => hobj.add (aligned_offset r)
  have hpc : Aligned (t + PC) := hobj.add (by decide)
  -- the state in which the registers are stored
  obtain ⟨s₁, hs₁⟩ : ∃ s₁, s₁ = (s.setMem eaxSave (s.reg .eax)).setReg .eax t := ⟨_, rfl⟩
  have hstart : run [.movl (.reg .eax) (.abs eaxSave), .movl (.disp 4 .esp) (.reg .eax)] s =
      some s₁ := by
    have hread : (s.setMem eaxSave (s.reg .eax)).mem (s.reg .esp + 4) = t :=
      (setMem_of_ne hne' _).trans ht
    have haddr : Aligned (s.reg .esp + 4) := hesp.add (by decide)
    have hesp' : (s.setMem eaxSave (s.reg .eax)).reg .esp + 4 = s.reg .esp + 4 := rfl
    rw [hs₁, run_store_abs hsave rfl, run_load hesp' haddr hread]
    rfl
  have heax : s₁.reg .eax = t := by rw [hs₁, setReg_self]
  have hreg : ∀ r, r ≠ .eax → s₁.reg r = s.reg r := fun r hr => by
    rw [hs₁, setReg_of_ne hr, setMem_reg]
  obtain ⟨s₂, hs₂⟩ : ∃ s₂ : State, s₂ =
    { s₁ with mem := stored offset s₁.reg t calleeRegs s₁.mem } := ⟨_, rfl⟩
  have hmid : run (storing offset calleeRegs) s₁ = some s₂ := by
    rw [run_storing fun r _ => heax ▸ hplace r, heax, hs₂]
  have hkept : ∀ a, ¬ Saved t a → s₂.mem a = s₁.mem a := by
    intro a ha
    rw [hs₂]
    exact stored_of_ne fun r _ heq => ha (heq ▸ saved_offset t r)
  have hregs : ∀ r, r ≠ .eax → s₂.mem (t + offset r) = s.reg r := by
    intro r hr
    rw [hs₂, ← hreg r hr]
    exact stored_of_mem offset_injective (mem_calleeRegs.2 hr)
  have hsaved : s₂.mem eaxSave = s.reg .eax := by
    rw [hkept _ hout, hs₁, setReg_mem, setMem_self]
  have hret : s₂.mem (s.reg .esp) = s.mem (s.reg .esp) := by
    rw [hkept _ hframe, hs₁, setReg_mem, setMem_of_ne hne]
  have heax₂ : s₂.reg .eax = t := by rw [hs₂, ← heax]
  have hesp₂ : s₂.reg .esp = s.reg .esp := by
    rw [hs₂, ← hreg .esp (by decide)]
  have hneq : ∀ r r', r ≠ r' → t + offset r ≠ t + offset r' := fun r r' hne heq =>
    hne (offset_injective ((BitVec.add_right_inj t).1 heq))
  have hneqPC : ∀ r, t + offset r ≠ t + PC := fun r heq =>
    offset_ne_PC r ((BitVec.add_right_inj t).1 heq)
  -- the rest stores `eax` and the return address by way of `ebx`
  obtain ⟨s₃, hs₃⟩ : ∃ s₃, s₃ = (s₂.setReg .ebx (s.reg .eax)).setMem (t + offset .eax)
    (s.reg .eax) := ⟨_, rfl⟩
  obtain ⟨s₄, hs₄⟩ : ∃ s₄, s₄ = (s₃.setReg .ebx (s.mem (s.reg .esp))).setMem (t + PC)
    (s.mem (s.reg .esp)) := ⟨_, rfl⟩
  have hrest : run [.movl (.abs eaxSave) (.reg .ebx), .movl (.reg .ebx) (.disp (offset .eax) .eax),
      .movl (.disp 0 .esp) (.reg .ebx), .movl (.reg .ebx) (.disp PC .eax)] s₂ = some s₄ := by
    have heax' : (s₂.setReg .ebx (s.reg .eax)).reg .eax + offset .eax = t + offset .eax := by
      rw [setReg_of_ne (by decide), heax₂]
    rw [run_load_abs hsave hsaved, run_store heax' (hplace .eax) (setReg_self _), ← hs₃]
    have hesp₃ : s₃.reg .esp + 0 = s.reg .esp := by
      refine (BitVec.add_zero _).trans ?_
      rw [hs₃, setMem_reg, setReg_of_ne (by decide), hesp₂]
    have hne₃ : s.reg .esp ≠ t + offset .eax := fun heq => hframe (heq ▸ saved_offset t .eax)
    have hret₃ : s₃.mem (s.reg .esp) = s.mem (s.reg .esp) := by
      rw [hs₃, setMem_of_ne hne₃, setReg_mem, hret]
    have heax₃ : (s₃.setReg .ebx (s.mem (s.reg .esp))).reg .eax + PC = t + PC := by
      rw [setReg_of_ne (by decide), hs₃, setMem_reg, setReg_of_ne (by decide), heax₂]
    rw [run_load hesp₃ hesp hret₃, run_store heax₃ hpc (setReg_self _), ← hs₄]
    rfl
  refine ⟨s₄, ?_, ?_, ?_, ?_, ?_⟩
  · rw [saveCode, List.append_assoc, run_append hstart, run_append hmid, hrest]
  · rw [hs₄, setMem_reg, setReg_of_ne (by decide), hs₃, setMem_reg, setReg_of_ne (by decide), hesp₂]
  · intro r
    rw [hs₄, setMem_of_ne (hneqPC r), setReg_mem, hs₃]
    by_cases hr : r = .eax
    · rw [hr, setMem_self]
    · rw [setMem_of_ne (hneq r .eax hr), setReg_mem, hregs r hr]
  · rw [hs₄, setMem_self]
  · intro a ha hobj'
    have hpc' : a ≠ t + PC := fun heq => hobj' (heq ▸ saved_PC t)
    have heax' : a ≠ t + offset .eax := fun heq => hobj' (heq ▸ saved_offset t .eax)
    rw [hs₄, setMem_of_ne hpc', setReg_mem, hs₃, setMem_of_ne heax', setReg_mem, hkept a hobj', hs₁,
      setReg_mem, setMem_of_ne ha]

/-- The second half: the registers are those in the object of `u`, and the word behind the return
address of `u` is overwritten with this address. -/
theorem run_restoreCode (hsave : Aligned eaxSave) (hesp : Aligned (s.reg .esp))
    (hu : s.mem (s.reg .esp + 8) = u) (hobj : Aligned u) (hout : ¬ Saved u eaxSave)
    (hframe : Aligned (s.mem (u + offset .esp))) (hne : s.mem (u + offset .esp) + 4 ≠ eaxSave) :
    ∃ s', run (restoreCode eaxSave) s = some s' ∧ (∀ r, s'.reg r = s.mem (u + offset r)) ∧
      s'.mem = Function.update (Function.update s.mem eaxSave (s.mem (u + offset .eax)))
        (s.mem (u + offset .esp) + 4) (s.mem (u + PC)) := by
  have hplace : ∀ r, Aligned (u + offset r) := fun r => hobj.add (aligned_offset r)
  have hpc : Aligned (u + PC) := hobj.add (by decide)
  have hnot : ∀ r, u + offset r ≠ eaxSave := fun r heq => hout (heq ▸ saved_offset u r)
  obtain ⟨s₁, hs₁⟩ : ∃ s₁, s₁ = ((s.setReg .eax u).setReg .ebx (s.mem (u + offset .eax))).setMem
    eaxSave (s.mem (u + offset .eax)) := ⟨_, rfl⟩
  have hstart : run [.movl (.disp 8 .esp) (.reg .eax), .movl (.disp (offset .eax) .eax) (.reg .ebx),
      .movl (.reg .ebx) (.abs eaxSave)] s = some s₁ := by
    have haddr : Aligned (s.reg .esp + 8) := hesp.add (by decide)
    have heax : (s.setReg .eax u).reg .eax + offset .eax = u + offset .eax := by rw [setReg_self]
    rw [run_load rfl haddr hu, run_load heax (hplace .eax) rfl,
      run_store_abs hsave (setReg_self _), hs₁]
    rfl
  have heax : s₁.reg .eax = u := by
    rw [hs₁, setMem_reg, setReg_of_ne (by decide), setReg_self]
  have hmem₁ : ∀ a, a ≠ eaxSave → s₁.mem a = s.mem a := by
    intro a ha
    rw [hs₁, setMem_of_ne ha]
    rfl
  have hplace₁ : ∀ r ∈ calleeRegs, Aligned (s₁.reg .eax + offset r) := fun r _ => by
    rw [heax]
    exact hplace r
  obtain ⟨s₂, hmid, hmem₂, hloaded, hkept⟩ := run_loading (by decide) hplace₁
  rw [heax] at hloaded
  have hregs : ∀ r, r ≠ .eax → s₂.reg r = s.mem (u + offset r) := fun r hr => by
    rw [hloaded r (mem_calleeRegs.2 hr), hmem₁ _ (hnot r)]
  have heax₂ : s₂.reg .eax + PC = u + PC := by
    rw [hkept .eax (by decide), heax]
  have hpc₂ : s₂.mem (u + PC) = s.mem (u + PC) := by
    rw [hmem₂, hmem₁ _ fun heq => hout (heq ▸ saved_PC u)]
  have hesp₂ : (s₂.setReg .eax (s.mem (u + PC))).reg .esp + 4 = s.mem (u + offset .esp) + 4 := by
    rw [setReg_of_ne (by decide), hregs .esp (by decide)]
  obtain ⟨s₃, hs₃⟩ : ∃ s₃, s₃ = (s₂.setReg .eax (s.mem (u + PC))).setMem
    (s.mem (u + offset .esp) + 4) (s.mem (u + PC)) := ⟨_, rfl⟩
  have hsave₃ : s₃.mem eaxSave = s.mem (u + offset .eax) := by
    rw [hs₃, setMem_of_ne hne.symm, setReg_mem, hmem₂, hs₁, setMem_self]
  refine ⟨s₃.setReg .eax (s.mem (u + offset .eax)), ?_, ?_, ?_⟩
  · rw [restoreCode, List.append_assoc, run_append hstart, run_append hmid,
      run_load heax₂ hpc hpc₂, run_store hesp₂ (hframe.add (by decide)) (setReg_self _), ← hs₃,
      run_load_abs hsave hsave₃]
    rfl
  · intro r
    by_cases hr : r = .eax
    · rw [hr, setReg_self]
    · rw [setReg_of_ne hr, hs₃, setMem_reg, setReg_of_ne hr, hregs r hr]
  · rw [setReg_mem, hs₃, State.setMem, setReg_mem, hmem₂, hs₁]
    rfl

/-! ## Threads with a processor each -/

/-- The registers of a thread and the address of its next instruction. -/
structure Context where
  reg : Reg → Word
  eip : Word

/-- What the rest of the kernel does, from one call of `SWITCH` to the next. A thread is known by
the address of its object. -/
inductive Action where
  /-- The current thread runs its own code: the registers it comes to, and its stores. -/
  | work (context : Context) (stores : List (Word × Word))
  /-- It calls `SWITCH` with the thread `next`, and with the return address `ra`. -/
  | switch (next ra : Word)
  /-- `Thread::Fork` of the new thread `t`, up to `StackAllocate`. -/
  | fork (t stack func arg : Word)
  /-- The thread `t` is deleted, and leaves `raw` in the words that it was saved in. -/
  | delete (t : Word) (raw : Word → Word)

/-- The threads as their code sees them: each has registers of its own. -/
structure Threads where
  current : Word
  live : Finset Word
  /-- The words of the stack of each thread. -/
  stack : Word → Set Word
  context : Word → Context
  mem : Word → Word

/-- The host has one processor. -/
structure Host where
  current : Word
  live : Finset Word
  stack : Word → Set Word
  context : Context
  mem : Word → Word

def stackWords (stack : Word) : Set Word :=
  {a | ∃ i < StackSize, a = stack + BitVec.ofNat 32 (4 * i)}

def storeAll (mem : Word → Word) (stores : List (Word × Word)) : Word → Word :=
  stores.foldl (fun m w => Function.update m w.1 w.2) mem

/-- The memory with the frame of the call of `SWITCH` at `e`. -/
def callFrame (e current next ra : Word) (mem : Word → Word) : Word → Word :=
  Function.update (Function.update (Function.update mem (e + 8) next) (e + 4) current) e ra

/-- The stack pointer in the frame of a call of `SWITCH`. -/
def Context.frame (c : Context) : Word := c.reg .esp - 12

instance (t a : Word) : Decidable (Saved t a) :=
  decidable_of_iff (a ∈ [t + offset .eax, t + offset .ebx, t + offset .ecx, t + offset .edx,
    t + offset .esi, t + offset .edi, t + offset .ebp, t + offset .esp, t + PC]) (by
      simp only [List.mem_cons, List.not_mem_nil, or_false]
      constructor
      · rintro (h | h | h | h | h | h | h | h | h)
        all_goals first | exact .inl ⟨_, h⟩ | exact .inr h
      · rintro (⟨r, h⟩ | h)
        · cases r <;> simp [h]
        · simp [h])

/-- The host in a call of `SWITCH`, before its first instruction. -/
def Host.calling (h : Host) (next ra : Word) : State where
  reg := Function.update h.context.reg .esp h.context.frame
  mem := callFrame h.context.frame h.current next ra h.mem

def Host.exec (rt : Routines) (eaxSave : Word) (h : Host) : Action → Option Host
  | .work context stores => some { h with context := context, mem := storeAll h.mem stores }
  | .switch next ra =>
      match SWITCH eaxSave (h.calling next ra) with
      | none => none
      | some (eip, s) => some { h with current := next, context := ⟨s.reg, eip⟩, mem := s.mem }
  | .fork t stack func arg =>
      some { h with
        live := insert t h.live
        stack := Function.update h.stack t (stackWords stack)
        mem := stackAllocate rt t stack func arg h.mem }
  | .delete t raw =>
      some { h with
        live := h.live.erase t
        mem := fun a => if Saved t a then raw a else h.mem a }

/-- A new thread, with what its object holds in the other registers. -/
def Context.start (rt : Routines) (t stack func arg : Word) (mem : Word → Word) : Context where
  reg
    | .esp => stack + BitVec.ofNat 32 (4 * (StackSize - 4))
    | .ecx => rt.interruptEnable
    | .edx => arg
    | .esi => func
    | .edi => rt.threadFinish
    | r => mem (t + offset r)
  eip := rt.threadRoot

/-- The current thread calls `SWITCH`, which returns to it later, with the arguments still on the
stack. -/
def Threads.call (th : Threads) (next ra : Word) : Threads :=
  let c := th.context th.current
  { th with
    context := Function.update th.context th.current ⟨Function.update c.reg .esp (c.frame + 4), ra⟩
    mem := callFrame c.frame th.current next ra th.mem }

/-- `SWITCH` returns to the thread `next`, which may be the one that has called it, and the word at
the stack pointer has been overwritten. -/
def Threads.exec (rt : Routines) (th : Threads) : Action → Threads
  | .work context stores =>
      { th with
        context := Function.update th.context th.current context
        mem := storeAll th.mem stores }
  | .switch next ra =>
      let called := th.call next ra
      { called with
        current := next
        mem := Function.update called.mem ((called.context next).reg .esp)
          (called.context next).eip }
  | .fork t stack func arg =>
      { th with
        live := insert t th.live
        stack := Function.update th.stack t (stackWords stack)
        context := Function.update th.context t (.start rt t stack func arg th.mem)
        mem := Function.update (Function.update th.mem
          (stack + BitVec.ofNat 32 (4 * (StackSize - 4)) - 4) rt.threadRoot) stack STACK_FENCEPOST }
  | .delete t raw =>
      { th with
        live := th.live.erase t
        mem := fun a => if Saved t a then raw a else th.mem a }

/-! ## What the threads keep to -/

/-- What belongs to `SWITCH`: `_eax_save` and the words that registers are saved in. -/
def Threads.Reserved (eaxSave : Word) (th : Threads) (a : Word) : Prop :=
  a = eaxSave ∨ ∃ t ∈ th.live, Saved t a

/-- No thread writes to a word that is reserved or that holds the return address of another thread,
a frame lies in the stack of its thread, and `new` gives memory that is not in use. -/
def Threads.Legal (eaxSave : Word) (th : Threads) : Action → Prop
  | .work _ stores => ∀ w ∈ stores, ¬ th.Reserved eaxSave w.1 ∧
      ∀ t ∈ th.live, t ≠ th.current → w.1 ≠ (th.context t).reg .esp - 4
  | .switch next _ => next ∈ th.live ∧ Aligned (th.context th.current).frame ∧
      ∀ d : Word, d = 0 ∨ d = 4 ∨ d = 8 → (th.context th.current).frame + d ∈ th.stack th.current
  | .fork t stack _ _ => t ∉ th.live ∧ Aligned t ∧ Aligned stack ∧
      (∀ a, Saved t a → ¬ th.Reserved eaxSave a ∧ ∀ u ∈ th.live, a ∉ th.stack u) ∧
        ∀ a ∈ stackWords stack, ¬ th.Reserved eaxSave a ∧ ¬ Saved t a ∧
          ∀ u ∈ th.live, a ∉ th.stack u
  | .delete t _ => t ∈ th.live ∧ t ≠ th.current

/-- Every action is legal where it is done. -/
def Threads.Disciplined (rt : Routines) (eaxSave : Word) : Threads → List Action → Prop
  | _, [] => True
  | th, act :: acts => th.Legal eaxSave act ∧ (th.exec rt act).Disciplined rt eaxSave acts

/-- The objects and the stacks of the threads do not overlap, and the stack pointers of the threads
that do not run are in their stacks. -/
structure Threads.Placed (eaxSave : Word) (th : Threads) : Prop where
  current : th.current ∈ th.live
  aligned : ∀ t ∈ th.live, Aligned t
  objects : ∀ t ∈ th.live, ∀ u ∈ th.live, t ≠ u → ∀ a, Saved t a → ¬ Saved u a
  disjoint : ∀ t ∈ th.live, ∀ u ∈ th.live, t ≠ u → ∀ a ∈ th.stack t, a ∉ th.stack u
  free : ∀ t ∈ th.live, ∀ a ∈ th.stack t, ¬ th.Reserved eaxSave a
  outside : ∀ t ∈ th.live, ¬ Saved t eaxSave
  asleep : ∀ t ∈ th.live, t ≠ th.current → Aligned ((th.context t).reg .esp) ∧
    (th.context t).reg .esp - 4 ∈ th.stack t ∧ (th.context t).reg .esp ∈ th.stack t

/-- The thread `t` waits in `SWITCH`: its registers are in its object, its return address is there
too and below its stack pointer. -/
structure Parked (mem : Word → Word) (t : Word) (c : Context) : Prop where
  reg : ∀ r, mem (t + offset r) = if r = .esp then c.reg .esp - 4 else c.reg r
  eip : mem (t + PC) = c.eip
  ret : mem (c.reg .esp - 4) = c.eip

/-- The host has saved the threads that do not run. -/
structure Represents (eaxSave : Word) (h : Host) (th : Threads) : Prop where
  current : h.current = th.current
  live : h.live = th.live
  stack : h.stack = th.stack
  context : h.context = th.context th.current
  parked : ∀ t ∈ th.live, t ≠ th.current → Parked h.mem t (th.context t)
  mem : ∀ a, ¬ th.Reserved eaxSave a → h.mem a = th.mem a

/-! ## Every action keeps the threads apart -/

variable {rt : Routines} {h h' : Host} {th : Threads} {mem mem' : Word → Word} {a : Word}

theorem reserved_saved {t : Word} (ht : t ∈ th.live) (ha : Saved t a) : th.Reserved eaxSave a :=
  .inr ⟨t, ht, ha⟩

theorem Parked.congr {t : Word} {c : Context} (hpark : Parked mem t c)
    (hobj : ∀ a, Saved t a → mem' a = mem a) (hret : mem' (c.reg .esp - 4) = mem (c.reg .esp - 4)) :
    Parked mem' t c where
  reg r := (hobj _ (saved_offset t r)).trans (hpark.reg r)
  eip := (hobj _ (saved_PC t)).trans hpark.eip
  ret := hret.trans hpark.ret

theorem storeAll_congr (stores : List (Word × Word)) (hmem : mem a = mem' a) :
    storeAll mem stores a = storeAll mem' stores a := by
  induction stores generalizing mem mem' with
  | nil => exact hmem
  | cons w stores ih =>
      refine ih ?_
      change Function.update mem w.1 w.2 a = Function.update mem' w.1 w.2 a
      by_cases ha : a = w.1
      · rw [ha, Function.update_self, Function.update_self]
      · rw [Function.update_of_ne ha, Function.update_of_ne ha, hmem]

theorem storeAll_of_ne {stores : List (Word × Word)} (hne : ∀ w ∈ stores, w.1 ≠ a) :
    storeAll mem stores a = mem a := by
  induction stores generalizing mem with
  | nil => rfl
  | cons w stores ih =>
      exact (ih fun w' hw' => hne w' (List.mem_cons_of_mem w hw')).trans
        (Function.update_of_ne (hne w List.mem_cons_self).symm _ _)

theorem Threads.Placed.work {context : Context} {stores : List (Word × Word)}
    (hp : th.Placed eaxSave) :
    (th.exec rt (.work context stores)).Placed eaxSave where
  current := hp.current
  aligned := hp.aligned
  objects := hp.objects
  disjoint := hp.disjoint
  free := hp.free
  outside := hp.outside
  asleep t ht hne := by
    have hctx : (th.exec rt (.work context stores)).context t = th.context t :=
      Function.update_of_ne hne _ _
    rw [hctx]
    exact hp.asleep t ht hne

theorem Represents.work {context : Context} {stores : List (Word × Word)}
    (hr : Represents eaxSave h th) (hl : th.Legal eaxSave (.work context stores)) :
    ∃ h', h.exec rt eaxSave (.work context stores) = some h' ∧
      Represents eaxSave h' (th.exec rt (.work context stores)) := by
  refine ⟨_, rfl, hr.current, hr.live, hr.stack, ?_, ?_, ?_⟩
  all_goals dsimp only [Threads.exec]
  · rw [Function.update_self]
  · intro t ht hne
    rw [Function.update_of_ne hne]
    refine (hr.parked t ht hne).congr (fun a ha => ?_) ?_
    · exact storeAll_of_ne fun w hw heq => (hl w hw).1 (heq ▸ reserved_saved ht ha)
    · exact storeAll_of_ne fun w hw => (hl w hw).2 t ht hne
  · exact fun a ha => storeAll_congr stores (hr.mem a ha)

theorem callFrame_of_ne {e current next ra : Word} (h0 : a ≠ e) (h4 : a ≠ e + 4) (h8 : a ≠ e + 8) :
    callFrame e current next ra mem a = mem a := by
  rw [callFrame, Function.update_of_ne h0, Function.update_of_ne h4, Function.update_of_ne h8]

theorem callFrame_congr {e current next ra : Word} (hmem : mem a = mem' a) :
    callFrame e current next ra mem a = callFrame e current next ra mem' a := by
  simp only [callFrame, Function.update_apply, hmem]

section

variable {next ra : Word}

/-- The words of the frame of a call of `SWITCH`. -/
theorem Threads.Legal.frame_mem (hl : th.Legal eaxSave (.switch next ra)) :
    (th.context th.current).frame ∈ th.stack th.current ∧
      (th.context th.current).frame + 4 ∈ th.stack th.current ∧
        (th.context th.current).frame + 8 ∈ th.stack th.current := by
  obtain ⟨_, _, hmem⟩ := hl
  refine ⟨?_, hmem 4 (.inr (.inl rfl)), hmem 8 (.inr (.inr rfl))⟩
  have h0 := hmem 0 (.inl rfl)
  rwa [show (th.context th.current).frame + 0 = _ from BitVec.add_zero _] at h0

/-- While the current thread calls `SWITCH`, no thread has its stack pointer outside its stack. -/
theorem Threads.Placed.call (hp : th.Placed eaxSave) (hl : th.Legal eaxSave (.switch next ra))
    {t : Word} (ht : t ∈ th.live) : Aligned (((th.call next ra).context t).reg .esp) ∧
      ((th.call next ra).context t).reg .esp - 4 ∈ th.stack t ∧
        ((th.call next ra).context t).reg .esp ∈ th.stack t := by
  by_cases hcur : t = th.current
  · subst hcur
    have hctx : ((th.call next ra).context th.current).reg .esp =
        (th.context th.current).frame + 4 := by
      simp only [Threads.call, Function.update_self]
    have hsub : (th.context th.current).frame + 4 - 4 = (th.context th.current).frame :=
      BitVec.add_sub_cancel _ _
    rw [hctx, hsub]
    exact ⟨hl.2.1.add (by decide), hl.frame_mem.1, hl.frame_mem.2.1⟩
  · have hctx : (th.call next ra).context t = th.context t := Function.update_of_ne hcur _ _
    rw [hctx]
    exact hp.asleep t ht hcur

theorem Threads.Placed.switch (hp : th.Placed eaxSave) (hl : th.Legal eaxSave (.switch next ra)) :
    (th.exec rt (.switch next ra)).Placed eaxSave where
  current := hl.1
  aligned := hp.aligned
  objects := hp.objects
  disjoint := hp.disjoint
  free := hp.free
  outside := hp.outside
  asleep _ ht _ := hp.call hl ht

/-- The words of a stack belong to no object. -/
theorem Threads.Placed.not_saved (hp : th.Placed eaxSave) {t u : Word} (ht : t ∈ th.live)
    (hu : u ∈ th.live) (ha : a ∈ th.stack t) : ¬ Saved u a :=
  fun hs => hp.free t ht a ha (reserved_saved hu hs)

theorem Threads.Placed.ne_eaxSave (hp : th.Placed eaxSave) {t : Word} (ht : t ∈ th.live)
    (ha : a ∈ th.stack t) : a ≠ eaxSave :=
  fun heq => hp.free t ht a ha (.inl heq)

/-- After the first half of `SWITCH` every thread waits in it. -/
theorem Represents.save (hr : Represents eaxSave h th) (hp : th.Placed eaxSave)
    (hsave : Aligned eaxSave) (hl : th.Legal eaxSave (.switch next ra)) :
    ∃ s, run (saveCode eaxSave) (h.calling next ra) = some s ∧
      s.reg .esp = (th.context th.current).frame ∧
      s.mem ((th.context th.current).frame + 8) = next ∧
      (∀ t ∈ th.live, Parked s.mem t ((th.call next ra).context t)) ∧
      ∀ a, ¬ th.Reserved eaxSave a → s.mem a = (th.call next ra).mem a := by
  obtain ⟨hm0, hm4, hm8⟩ := hl.frame_mem
  obtain ⟨-, halign, -⟩ := hl
  have hcur := hp.current
  obtain ⟨s₀, hs₀⟩ : ∃ s₀, s₀ = h.calling next ra := ⟨_, rfl⟩
  rw [← hs₀]
  rw [Host.calling, hr.context, hr.current] at hs₀
  obtain ⟨e, he⟩ : ∃ e, e = (th.context th.current).frame := ⟨_, rfl⟩
  rw [← he] at hm0 hm4 hm8 halign hs₀ ⊢
  have hesp₀ : s₀.reg .esp = e := by
    rw [hs₀]
    exact Function.update_self Reg.esp e (th.context th.current).reg
  have hmem₀ : s₀.mem = callFrame e th.current next ra h.mem := by rw [hs₀]
  have h4 : e + 4 ≠ e := by bv_omega
  have h8 : e + 8 ≠ e := by bv_omega
  have h84 : e + 8 ≠ e + 4 := by bv_omega
  have hret₀ : s₀.mem e = ra := by rw [hmem₀, callFrame, Function.update_self]
  have hcur₀ : s₀.mem (e + 4) = th.current := by
    rw [hmem₀, callFrame, Function.update_of_ne h4, Function.update_self]
  have hnext₀ : s₀.mem (e + 8) = next := by
    rw [hmem₀, callFrame, Function.update_of_ne h8, Function.update_of_ne h84, Function.update_self]
  obtain ⟨s, hrun, hesp, hregs, hpc, hkept⟩ := run_saveCode (s := s₀) hsave (hesp₀ ▸ halign)
    (hesp₀ ▸ hcur₀) (hp.aligned _ hcur) (hesp₀ ▸ hp.ne_eaxSave hcur hm0)
    (hesp₀ ▸ hp.ne_eaxSave hcur hm4) (hesp₀ ▸ hp.not_saved hcur hcur hm0) (hp.outside _ hcur)
  rw [hesp₀] at hesp hpc
  have hframe : ∀ {b}, b ∈ th.stack th.current → s.mem b = callFrame e th.current next ra h.mem b :=
    fun hb => by rw [hkept _ (hp.ne_eaxSave hcur hb) (hp.not_saved hcur hcur hb), hmem₀]
  have hsub : e + 4 - 4 = e := BitVec.add_sub_cancel _ _
  refine ⟨s, hrun, hesp, ?_, ?_, ?_⟩
  · rw [hframe hm8, ← hmem₀, hnext₀]
  · intro t ht
    by_cases htc : t = th.current
    · -- the thread that calls has been saved now
      subst htc
      have hctx : (th.call next ra).context th.current =
          ⟨Function.update (th.context th.current).reg .esp (e + 4), ra⟩ := by
        rw [he]
        exact Function.update_self ..
      rw [hctx]
      refine ⟨fun r => ?_, hpc.trans hret₀, ?_⟩
      · rw [hregs r, hs₀]
        dsimp only
        rw [Function.update_self, hsub, Function.update_apply, Function.update_apply]
        by_cases hresp : r = .esp
        · rw [if_pos hresp, if_pos hresp]
        · rw [if_neg hresp, if_neg hresp, if_neg hresp]
      · dsimp only
        rw [Function.update_self, hsub, hframe hm0, ← hmem₀, hret₀]
    · have hctx : (th.call next ra).context t = th.context t := Function.update_of_ne htc _ _
      have hout : ∀ b, b ≠ eaxSave → ¬ Saved th.current b → b ∉ th.stack th.current →
          s.mem b = h.mem b := fun b hb hobj hstack => by
        have hne : ∀ {d}, d ∈ th.stack th.current → b ≠ d := fun hd heq => hstack (heq ▸ hd)
        rw [hkept b hb hobj, hmem₀, callFrame_of_ne (hne hm0) (hne hm4) (hne hm8)]
      obtain ⟨_, hra, _⟩ := hp.asleep t ht htc
      rw [hctx]
      refine (hr.parked t ht htc).congr (fun a ha => ?_) ?_
      · exact hout a (fun heq => hp.outside t ht (heq ▸ ha)) (hp.objects t ht _ hcur htc a ha)
          fun hs => hp.not_saved hcur ht hs ha
      · exact hout _ (hp.ne_eaxSave ht hra) (hp.not_saved ht hcur hra)
          (hp.disjoint t ht _ hcur htc _ hra)
  · intro a ha
    obtain ⟨hsave', hobj⟩ := not_or.1 ha
    rw [hkept a hsave' fun hs => hobj ⟨_, hcur, hs⟩, hmem₀, callFrame_congr (hr.mem a ha), he]
    rfl

/-- The second half resumes a thread that waits in `SWITCH`, with all the registers that it had. -/
theorem Parked.restore {s : State} {c : Context} (hsave : Aligned eaxSave)
    (hesp : Aligned (s.reg .esp)) (hnext : s.mem (s.reg .esp + 8) = next)
    (hpark : Parked s.mem next c) (hobj : Aligned next) (hout : ¬ Saved next eaxSave)
    (hframe : Aligned (c.reg .esp)) (hne : c.reg .esp ≠ eaxSave)
    (hne' : c.reg .esp - 4 ≠ eaxSave) :
    ∃ s₁ s', run (restoreCode eaxSave) s = some s₁ ∧ s₁.pop = some (c.eip, s') ∧ s'.reg = c.reg ∧
      ∀ a, a ≠ eaxSave → s'.mem a = Function.update s.mem (c.reg .esp) c.eip a := by
  have hsp : s.mem (next + offset .esp) = c.reg .esp - 4 := (hpark.reg .esp).trans (if_pos rfl)
  have hadd : c.reg .esp - 4 + 4 = c.reg .esp := BitVec.sub_add_cancel _ _
  have hra : Aligned (c.reg .esp - 4) := hframe.sub (by decide)
  obtain ⟨s₁, hrun, hregs, hmem⟩ := run_restoreCode (s := s) hsave hesp hnext hobj hout
    (hsp ▸ hra) (by rwa [hsp, hadd])
  rw [hsp, hadd, hpark.eip] at hmem
  have hmem' : ∀ a, a ≠ eaxSave → s₁.mem a = Function.update s.mem (c.reg .esp) c.eip a := by
    intro a ha
    rw [hmem]
    by_cases heq : a = c.reg .esp
    · rw [heq, Function.update_self, Function.update_self]
    · rw [Function.update_of_ne heq, Function.update_of_ne heq, Function.update_of_ne ha]
  refine ⟨s₁, s₁.setReg .esp (c.reg .esp), hrun, ?_, ?_, hmem'⟩
  · have hlt : c.reg .esp - 4 ≠ c.reg .esp := by bv_omega
    have hword : s₁.mem (c.reg .esp - 4) = c.eip := by
      rw [hmem' _ hne', Function.update_of_ne hlt, hpark.ret]
    rw [State.pop, hregs, hsp, load_eq hra, hword, hadd]
  · funext r
    by_cases hresp : r = .esp
    · rw [hresp, setReg_self]
    · rw [setReg_of_ne hresp, hregs, hpark.reg, if_neg hresp]

theorem Represents.switch (hr : Represents eaxSave h th) (hp : th.Placed eaxSave)
    (hsave : Aligned eaxSave) (hl : th.Legal eaxSave (.switch next ra)) :
    ∃ h', h.exec rt eaxSave (.switch next ra) = some h' ∧
      Represents eaxSave h' (th.exec rt (.switch next ra)) := by
  obtain ⟨s, hrun, hesp, harg, hparked, hmem⟩ := hr.save hp hsave hl
  have hnext := hl.1
  obtain ⟨hframe, hra, htop⟩ := hp.call hl hnext
  obtain ⟨s₁, s', hrun', hpop, hreg, hmem'⟩ := (hparked next hnext).restore hsave (hesp ▸ hl.2.1)
    (hesp ▸ harg) (hp.aligned next hnext) (hp.outside next hnext) hframe (hp.ne_eaxSave hnext htop)
    (hp.ne_eaxSave hnext hra)
  have hswitch : SWITCH eaxSave (h.calling next ra) =
      some (((th.call next ra).context next).eip, s') := by
    rw [SWITCH, switchCode_eq, run_append hrun, hrun']
    exact hpop
  refine ⟨{ h with
    current := next, context := ⟨s'.reg, ((th.call next ra).context next).eip⟩, mem := s'.mem }, ?_,
    rfl, hr.live, hr.stack, ?_, fun t ht hne => ?_, fun a ha => ?_⟩
  · rw [Host.exec, hswitch]
  · rw [hreg]
    rfl
  · have hother : ∀ {b}, b ≠ eaxSave → b ≠ ((th.call next ra).context next).reg .esp →
        s'.mem b = s.mem b := fun hb hb' => by rw [hmem' _ hb, Function.update_of_ne hb']
    obtain ⟨_, hra', _⟩ := hp.call hl ht
    refine (hparked t ht).congr (fun b hb => ?_) ?_
    · exact hother (fun heq => hp.outside t ht (heq ▸ hb))
        fun heq => hp.not_saved hnext ht htop (heq ▸ hb)
    · exact hother (hp.ne_eaxSave ht hra') fun heq =>
        hp.disjoint t ht next hnext hne _ hra' (heq ▸ htop)
  · dsimp only [Threads.exec]
    rw [hmem' a fun heq => ha (.inl heq)]
    by_cases heq : a = ((th.call next ra).context next).reg .esp
    · rw [heq, Function.update_self, Function.update_self]
    · rw [Function.update_of_ne heq, Function.update_of_ne heq, hmem a ha]

end

section

variable {stack func arg : Word}

/-- `ThreadRoot` is where a new thread returns to: its address is in the top word. -/
def stackTop (stack : Word) : Word := stack + BitVec.ofNat 32 (4 * (StackSize - 4)) - 4

theorem stackTop_mem : stackTop stack ∈ stackWords stack :=
  ⟨4091, by decide, by unfold stackTop StackSize; bv_omega⟩

theorem base_mem : stack ∈ stackWords stack := ⟨0, by decide, (BitVec.add_zero _).symm⟩

theorem stackTop_ne : stackTop stack ≠ stack := by
  unfold stackTop StackSize
  bv_omega

theorem stackAllocate_of_not_saved (ha : ¬ Saved t a) :
    stackAllocate rt t stack func arg mem a =
      Function.update (Function.update mem (stackTop stack) rt.threadRoot) stack
        STACK_FENCEPOST a := by
  have hne : ∀ r, a ≠ t + offset r := fun r heq => ha (heq ▸ saved_offset t r)
  have hpc : a ≠ t + PC := fun heq => ha (heq ▸ saved_PC t)
  rw [stackAllocate, Function.update_of_ne (hne _), Function.update_of_ne (hne _),
    Function.update_of_ne (hne _), Function.update_of_ne (hne _), Function.update_of_ne hpc]
  simp only [Function.update_apply, if_neg (hne .esp), stackTop]

theorem stackAllocate_PC : stackAllocate rt t stack func arg mem (t + PC) = rt.threadRoot := by
  have hne : ∀ r, t + PC ≠ t + offset r := fun r heq =>
    offset_ne_PC r ((BitVec.add_right_inj t).1 heq).symm
  rw [stackAllocate, Function.update_of_ne (hne _), Function.update_of_ne (hne _),
    Function.update_of_ne (hne _), Function.update_of_ne (hne _), Function.update_self]

theorem stackAllocate_offset (hdisj : ∀ a ∈ stackWords stack, ¬ Saved t a) (r : Reg) :
    stackAllocate rt t stack func arg mem (t + offset r) =
      if r = .esp then stackTop stack
      else (Context.start rt t stack func arg mem).reg r := by
  have hstack : t + offset r ≠ stack := fun heq => hdisj _ base_mem (heq ▸ saved_offset t r)
  have htop : t + offset r ≠ stackTop stack := fun heq =>
    hdisj _ stackTop_mem (heq ▸ saved_offset t r)
  have hpc : t + offset r ≠ t + PC := fun heq => offset_ne_PC r ((BitVec.add_right_inj t).1 heq)
  have hiff : ∀ r', t + offset r = t + offset r' ↔ r = r' := fun r' =>
    (BitVec.add_right_inj t).trans offset_injective.eq_iff
  rw [stackTop] at htop
  simp only [stackAllocate, Function.update_apply, hiff, if_neg hpc, if_neg hstack, if_neg htop]
  cases r <;> simp only [reduceCtorEq, if_true, if_false, Context.start, stackTop]

/-- The objects and the stacks of the other threads are where they were. -/
theorem Threads.Placed.fork (hp : th.Placed eaxSave)
    (hl : th.Legal eaxSave (.fork t stack func arg)) :
    (th.exec rt (.fork t stack func arg)).Placed eaxSave := by
  obtain ⟨ht, halign, halign', hobj, hstack⟩ := hl
  have hcur : th.current ≠ t := fun heq => ht (heq ▸ hp.current)
  have hres : ∀ a, (th.exec rt (.fork t stack func arg)).Reserved eaxSave a ↔
      th.Reserved eaxSave a ∨ Saved t a := by
    intro a
    simp only [Threads.Reserved, Threads.exec, Finset.mem_insert]
    grind
  have hmem : ∀ u ∈ insert t th.live, u = t ∨ u ∈ th.live ∧ u ≠ t := fun u hu =>
    (Finset.mem_insert.1 hu).imp_right fun hu => ⟨hu, fun heq => ht (heq ▸ hu)⟩
  constructor
  all_goals dsimp only [Threads.exec]
  · exact Finset.mem_insert_of_mem hp.current
  · intro u hu
    rcases hmem u hu with rfl | ⟨hu', -⟩
    · exact halign
    · exact hp.aligned u hu'
  · intro u hu v hv hne a ha
    rcases hmem u hu with rfl | ⟨hu', -⟩ <;> rcases hmem v hv with rfl | ⟨hv', -⟩
    · exact absurd rfl hne
    · exact fun hs => (hobj a ha).1 (reserved_saved hv' hs)
    · exact fun hs => (hobj a hs).1 (reserved_saved hu' ha)
    · exact hp.objects u hu' v hv' hne a ha
  · intro u hu v hv hne a ha
    rcases hmem u hu with rfl | ⟨hu', hut⟩ <;> rcases hmem v hv with rfl | ⟨hv', hvt⟩
    · exact absurd rfl hne
    · rw [Function.update_self] at ha
      rw [Function.update_of_ne hvt]
      exact (hstack a ha).2.2 v hv'
    · rw [Function.update_of_ne hut] at ha
      rw [Function.update_self]
      exact fun hs => (hstack a hs).2.2 u hu' ha
    · rw [Function.update_of_ne hut] at ha
      rw [Function.update_of_ne hvt]
      exact hp.disjoint u hu' v hv' hne a ha
  · intro u hu a ha
    refine fun h => ((hres a).1 h).elim ?_ ?_
    all_goals rcases hmem u hu with rfl | ⟨hu', hut⟩
    · rw [Function.update_self] at ha
      exact (hstack a ha).1
    · rw [Function.update_of_ne hut] at ha
      exact hp.free u hu' a ha
    · rw [Function.update_self] at ha
      exact (hstack a ha).2.1
    · rw [Function.update_of_ne hut] at ha
      exact fun hs => (hobj a hs).2 u hu' ha
  · intro u hu
    rcases hmem u hu with rfl | ⟨hu', -⟩
    · exact fun hs => (hobj _ hs).1 (.inl rfl)
    · exact hp.outside u hu'
  · intro u hu hne
    rcases hmem u hu with rfl | ⟨hu', hut⟩
    · rw [Function.update_self, Function.update_self]
      exact ⟨halign'.add (by decide), stackTop_mem, 4092, by decide, rfl⟩
    · rw [Function.update_of_ne hut, Function.update_of_ne hut]
      exact hp.asleep u hu' hne

/-- The object of the new thread is saved, with `ThreadRoot` to return to. -/
theorem Represents.fork (hr : Represents eaxSave h th) (hp : th.Placed eaxSave)
    (hl : th.Legal eaxSave (.fork t stack func arg)) :
    ∃ h', h.exec rt eaxSave (.fork t stack func arg) = some h' ∧
      Represents eaxSave h' (th.exec rt (.fork t stack func arg)) := by
  obtain ⟨ht, -, -, hobj, hstack⟩ := hl
  have hcur : th.current ≠ t := fun heq => ht (heq ▸ hp.current)
  have hmem : ∀ u ∈ insert t th.live, u = t ∨ u ∈ th.live ∧ u ≠ t := fun u hu =>
    (Finset.mem_insert.1 hu).imp_right fun hu => ⟨hu, fun heq => ht (heq ▸ hu)⟩
  have hdisj : ∀ a ∈ stackWords stack, ¬ Saved t a := fun a ha => (hstack a ha).2.1
  have hkept : ∀ a, ¬ Saved t a → a ∉ stackWords stack →
      stackAllocate rt t stack func arg h.mem a = h.mem a := fun a ha hs => by
    have hne : ∀ {b}, b ∈ stackWords stack → a ≠ b := fun hb heq => hs (heq ▸ hb)
    rw [stackAllocate_of_not_saved ha, Function.update_of_ne (hne base_mem),
      Function.update_of_ne (hne stackTop_mem)]
  have hothers : ∀ u ∈ th.live, ∀ a, Saved u a →
      stackAllocate rt t stack func arg h.mem a = h.mem a := fun u hu a ha =>
    hkept a (fun hs => (hobj a hs).1 (reserved_saved hu ha))
      fun hs => (hstack a hs).1 (reserved_saved hu ha)
  refine ⟨_, rfl, hr.current, ?_, ?_, ?_, ?_, ?_⟩
  all_goals dsimp only [Threads.exec]
  · rw [hr.live]
  · rw [hr.stack]
  · rw [Function.update_of_ne hcur, hr.context]
  · intro u hu hne
    rcases hmem u hu with rfl | ⟨hu, hut⟩
    · rw [Function.update_self]
      refine ⟨fun r => ?_, stackAllocate_PC, ?_⟩
      · have hstart : (Context.start rt u stack func arg h.mem).reg r =
            (Context.start rt u stack func arg th.mem).reg r := by
          have hword := hr.mem _ (hobj _ (saved_offset u r)).1
          cases r <;> first | rfl | exact hword
        rw [stackAllocate_offset hdisj, hstart]
        rfl
      · change stackAllocate rt u stack func arg h.mem (stackTop stack) = rt.threadRoot
        rw [stackAllocate_of_not_saved (hdisj _ stackTop_mem), Function.update_of_ne stackTop_ne,
          Function.update_self]
    · obtain ⟨_, hra, _⟩ := hp.asleep u hu hne
      rw [Function.update_of_ne hut]
      exact (hr.parked u hu hne).congr (hothers u hu)
        (hkept _ (fun hs => (hobj _ hs).2 u hu hra) fun hs => (hstack _ hs).2.2 u hu hra)
  · intro a ha
    have hnot : ¬ Saved t a := fun hs => ha (.inr ⟨t, Finset.mem_insert_self .., hs⟩)
    have hres : ¬ th.Reserved eaxSave a := fun hs =>
      ha (hs.imp_right fun ⟨u, hu, hs⟩ => ⟨u, Finset.mem_insert_of_mem hu, hs⟩)
    rw [stackAllocate_of_not_saved hnot]
    simp only [Function.update_apply, hr.mem a hres, stackTop]

theorem Threads.Placed.delete {raw : Word → Word} (hp : th.Placed eaxSave)
    (hl : th.Legal eaxSave (.delete t raw)) : (th.exec rt (.delete t raw)).Placed eaxSave where
  current := Finset.mem_erase.2 ⟨Ne.symm hl.2, hp.current⟩
  aligned u hu := hp.aligned u (Finset.mem_of_mem_erase hu)
  objects u hu v hv := hp.objects u (Finset.mem_of_mem_erase hu) v (Finset.mem_of_mem_erase hv)
  disjoint u hu v hv := hp.disjoint u (Finset.mem_of_mem_erase hu) v (Finset.mem_of_mem_erase hv)
  free u hu a ha h := hp.free u (Finset.mem_of_mem_erase hu) a ha <|
    h.imp_right fun ⟨v, hv, hs⟩ => ⟨v, Finset.mem_of_mem_erase hv, hs⟩
  outside u hu := hp.outside u (Finset.mem_of_mem_erase hu)
  asleep u hu hne := hp.asleep u (Finset.mem_of_mem_erase hu) hne

theorem Represents.delete {raw : Word → Word} (hr : Represents eaxSave h th)
    (hp : th.Placed eaxSave) (hl : th.Legal eaxSave (.delete t raw)) :
    ∃ h', h.exec rt eaxSave (.delete t raw) = some h' ∧
      Represents eaxSave h' (th.exec rt (.delete t raw)) := by
  obtain ⟨ht, -⟩ := hl
  have hlive : ∀ u ∈ th.live.erase t, u ∈ th.live ∧ u ≠ t := fun u hu =>
    (Finset.mem_erase.1 hu).symm
  refine ⟨_, rfl, hr.current, ?_, hr.stack, hr.context, ?_, ?_⟩
  all_goals dsimp only [Threads.exec]
  · rw [hr.live]
  · intro u hu hne
    obtain ⟨hu, hut⟩ := hlive u hu
    obtain ⟨_, hra, _⟩ := hp.asleep u hu hne
    refine (hr.parked u hu hne).congr (fun a ha => ?_) ?_
    · exact if_neg (hp.objects u hu t ht hut a ha)
    · exact if_neg (hp.not_saved hu ht hra)
  · intro a ha
    by_cases hs : Saved t a
    · rw [if_pos hs, if_pos hs]
    · rw [if_neg hs, if_neg hs]
      refine hr.mem a fun h => ha (h.imp_right fun ⟨u, hu, hu'⟩ => ⟨u, ?_, hu'⟩)
      exact Finset.mem_erase.2 ⟨fun heq => hs (heq ▸ hu'), hu⟩

end

/-! ## Runs -/

def Host.run (rt : Routines) (eaxSave : Word) (h : Host) (acts : List Action) : Option Host :=
  acts.foldlM (Host.exec rt eaxSave) h

def Threads.run (rt : Routines) (th : Threads) (acts : List Action) : Threads :=
  acts.foldl (Threads.exec rt) th

/-- One step of the two levels. -/
theorem Represents.exec (hsave : Aligned eaxSave) (hr : Represents eaxSave h th)
    (hp : th.Placed eaxSave) {act : Action} (hl : th.Legal eaxSave act) :
    (∃ h', h.exec rt eaxSave act = some h' ∧ Represents eaxSave h' (th.exec rt act)) ∧
      (th.exec rt act).Placed eaxSave := by
  cases act with
  | work context stores => exact ⟨hr.work hl, hp.work⟩
  | switch next ra => exact ⟨hr.switch hp hsave hl, hp.switch hl⟩
  | fork t stack func arg => exact ⟨hr.fork hp hl, hp.fork hl⟩
  | delete t raw => exact ⟨hr.delete hp hl, hp.delete hl⟩

/-- A run keeps the threads apart: the host goes on. -/
theorem Represents.run (hr : Represents eaxSave h th) (hp : th.Placed eaxSave)
    (hsave : Aligned eaxSave) {acts : List Action} (hd : th.Disciplined rt eaxSave acts) :
    ∃ h', h.run rt eaxSave acts = some h' ∧ Represents eaxSave h' (th.run rt acts) := by
  induction acts generalizing h th with
  | nil => exact ⟨h, rfl, hr⟩
  | cons act acts ih =>
      obtain ⟨hl, hd⟩ := hd
      obtain ⟨⟨h₁, hexec, hr₁⟩, hp₁⟩ := hr.exec hsave hp hl
      obtain ⟨h', hrun, hend⟩ := ih hr₁ hp₁ hd
      refine ⟨h', ?_, hend⟩
      rw [Host.run, List.foldlM_cons, hexec]
      exact hrun

/-- One processor and `SWITCH` give every thread registers of its own: in every run the host goes
on, and the thread that runs has the registers and sees the memory that it has among threads that
keep their registers themselves. -/
theorem switch_multiplexes (hsave : Aligned eaxSave) (hr : Represents eaxSave h th)
    (hp : th.Placed eaxSave) {acts : List Action} (hd : th.Disciplined rt eaxSave acts) :
    ∃ h', h.run rt eaxSave acts = some h' ∧ h'.current = (th.run rt acts).current ∧
      h'.context = (th.run rt acts).context (th.run rt acts).current ∧
        ∀ a, ¬ (th.run rt acts).Reserved eaxSave a → h'.mem a = (th.run rt acts).mem a := by
  obtain ⟨h', hrun, hend⟩ := hr.run hp hsave hd
  exact ⟨h', hrun, hend.current, hend.context, hend.mem⟩

theorem Saved.le (ht : t.toNat + 32 < 2 ^ 32) (ha : Saved t a) :
    t.toNat ≤ a.toNat ∧ a.toNat ≤ t.toNat + 32 := by
  have hle : ∀ d : Word, d.toNat ≤ 32 → t.toNat ≤ (t + d).toNat ∧ (t + d).toNat ≤ t.toNat + 32 := by
    intro d hd
    rw [BitVec.toNat_add, Nat.mod_eq_of_lt (by omega)]
    omega
  rcases ha with ⟨r, rfl⟩ | rfl
  · exact hle _ (by cases r <;> decide)
  · exact hle _ (by decide)

theorem stackWords_le {stack : Word} (hstack : stack.toNat + 4 * StackSize < 2 ^ 32)
    (ha : a ∈ stackWords stack) :
    stack.toNat ≤ a.toNat ∧ a.toNat < stack.toNat + 4 * StackSize := by
  obtain ⟨i, hi, rfl⟩ := ha
  rw [BitVec.toNat_add, BitVec.toNat_ofNat, Nat.mod_eq_of_lt (by omega),
    Nat.mod_eq_of_lt (by omega)]
  omega

/-- The main thread alone, in the middle of its stack. -/
def bootThreads : Threads where
  current := 0x1000
  live := {0x1000}
  stack _ := stackWords 0x100000
  context _ := ⟨fun r => if r = .esp then 0x102000 else 0, 0⟩
  mem _ := 0

def bootHost : Host where
  current := 0x1000
  live := {0x1000}
  stack := bootThreads.stack
  context := bootThreads.context 0x1000
  mem _ := 0

theorem bootThreads_live {u : Word} (hu : u ∈ bootThreads.live) : u = 0x1000 :=
  Finset.mem_singleton.1 hu

theorem bootThreads_reserved (ha : bootThreads.Reserved 0x500 a) : a.toNat < 0x1100 := by
  rcases ha with rfl | ⟨u, hu, ha⟩
  · decide
  · rw [bootThreads_live hu] at ha
    have := ha.le (by decide)
    simp at this
    omega

theorem bootThreads_placed : bootThreads.Placed 0x500 where
  current := Finset.mem_singleton_self _
  aligned u hu := by
    rw [bootThreads_live hu]
    decide
  objects u hu v hv hne := absurd ((bootThreads_live hu).trans (bootThreads_live hv).symm) hne
  disjoint u hu v hv hne := absurd ((bootThreads_live hu).trans (bootThreads_live hv).symm) hne
  free u hu a ha h := by
    have := bootThreads_reserved h
    have hle := stackWords_le (by decide) ha
    simp at hle
    omega
  outside u hu := by
    rw [bootThreads_live hu]
    decide
  asleep _ hu hne := absurd (bootThreads_live hu) hne

theorem bootHost_represents : Represents 0x500 bootHost bootThreads where
  current := rfl
  live := rfl
  stack := rfl
  context := rfl
  parked _ hu hne := absurd (bootThreads_live hu) hne
  mem _ _ := rfl

theorem bootThreads_fork : bootThreads.Legal 0x500 (.fork 0x2000 0x200000 0x77 5) := by
  refine ⟨by decide, by decide, by decide, fun a ha => ?_, fun a ha => ?_⟩
  · have hle := ha.le (by decide)
    refine ⟨fun h => ?_, fun u hu hs => ?_⟩
    · have := bootThreads_reserved h
      simp at hle
      omega
    · have := stackWords_le (by decide) hs
      simp [StackSize] at hle this
      omega
  · have hle := stackWords_le (by decide) ha
    refine ⟨fun h => ?_, fun h => ?_, fun u hu hs => ?_⟩
    · have := bootThreads_reserved h
      simp at hle
      omega
    · have := h.le (by decide)
      simp at hle this
      omega
    · have := stackWords_le (by decide) hs
      simp [StackSize] at hle this
      omega

/-- A call of `SWITCH` whose frame is `i` words above the bottom of the stack of its thread. -/
theorem legal_switch (stack : Word) (i : ℕ) {next ra : Word} (hnext : next ∈ th.live)
    (hstack : th.stack th.current = stackWords stack) (halign : Aligned stack)
    (hi : i + 2 < StackSize)
    (hframe : (th.context th.current).frame = stack + BitVec.ofNat 32 (4 * i)) :
    th.Legal eaxSave (.switch next ra) := by
  refine ⟨hnext, ?_, ?_⟩
  · rw [hframe]
    refine halign.add ?_
    rw [Aligned, BitVec.toNat_ofNat]
    omega
  · rw [hframe, hstack]
    rintro d (rfl | rfl | rfl)
    · exact ⟨i, by omega, by bv_omega⟩
    · exact ⟨i + 1, by omega, by bv_omega⟩
    · exact ⟨i + 2, by omega, by bv_omega⟩

def bootRoutines : Routines := ⟨0x10, 0x20, 0x30⟩

/-- The main thread forks a thread and switches to itself, as `Sleep` does when the caller is the
first thread that an interrupt wakes, and then to the new one. -/
def forkAndSwitch : List Action :=
  [.fork 0x2000 0x200000 0x77 5, .switch 0x1000 0x40, .switch 0x2000 0x44]

theorem boot_disciplined :
    bootThreads.Disciplined bootRoutines 0x500 (forkAndSwitch ++ [.switch 0x1000 0x48]) := by
  have hne : (0x1000 : Word) ≠ 0x2000 := by decide
  have hmain : (bootThreads.exec bootRoutines (.fork 0x2000 0x200000 0x77 5)).stack 0x1000 =
      stackWords 0x100000 :=
    Function.update_of_ne hne (stackWords 0x200000) bootThreads.stack
  have hnew : (bootThreads.exec bootRoutines (.fork 0x2000 0x200000 0x77 5)).stack 0x2000 =
      stackWords 0x200000 := by simp only [Threads.exec, Function.update_self]
  refine ⟨bootThreads_fork, ?_, ?_, ?_, trivial⟩
  · exact legal_switch 0x100000 2045 (by decide) hmain (by decide) (by decide) (by decide)
  · exact legal_switch 0x100000 2043 (by decide) hmain (by decide) (by decide) (by decide)
  · exact legal_switch 0x200000 4089 (by decide) hnew (by decide) (by decide) (by decide)

/-- The new thread switches back, and the main thread goes on behind its second call. -/
theorem boot_switches : ∃ h',
    bootHost.run bootRoutines 0x500 (forkAndSwitch ++ [.switch 0x1000 0x48]) = some h' ∧
      h'.current = 0x1000 ∧ h'.context.eip = 0x44 ∧ h'.context.reg .esp = 0x101ff0 := by
  obtain ⟨h', hrun, hcur, hctx, _⟩ := switch_multiplexes (by decide) bootHost_represents
    bootThreads_placed boot_disciplined
  refine ⟨h', hrun, hcur, ?_, ?_⟩
  all_goals
    rw [hctx]
    decide

/-! ## The first dispatch of a thread -/

/-- The calls of a new thread: interrupts are enabled, `func` is called with `arg` behind its return
address, and then the thread finishes. -/
def rootCalls (rt : Routines) (func arg : Word) : List (Word × (State → Prop)) :=
  [(rt.interruptEnable, fun _ => True), (func, fun s => s.mem (s.reg .esp + 4) = arg),
    (rt.threadFinish, fun _ => True)]

section

variable {callee : Word → State → State → Prop} {stack func arg ra : Word}

/-- The word with the argument is still on the stack when the first call returns. -/
theorem ThreadRoot_calls (hconv : Conventional callee)
    (hkeep : ∀ s s', callee rt.interruptEnable s s' →
      s'.mem (s.reg .esp + 4) = s.mem (s.reg .esp + 4))
    (halign : Aligned (s.reg .esp)) (hecx : s.reg .ecx = rt.interruptEnable)
    (hedx : s.reg .edx = arg) (hesi : s.reg .esi = func) (hedi : s.reg .edi = rt.threadFinish) :
    Performs callee (rootCalls rt func arg) threadRootCode s := by
  -- the frame: `ebp`, and below it the argument
  obtain ⟨s₁, hs₁⟩ : ∃ s₁, s₁ = s.pushed (s.reg .ebp) := ⟨_, rfl⟩
  obtain ⟨s₂, hs₂⟩ : ∃ s₂, s₂ = s₁.setReg .ebp (s₁.reg .esp) := ⟨_, rfl⟩
  obtain ⟨s₃, hs₃⟩ : ∃ s₃, s₃ = s₂.pushed arg := ⟨_, rfl⟩
  obtain ⟨top, htop⟩ : ∃ top, top = s.reg .esp - 4 - 4 := ⟨_, rfl⟩
  have hesp₂ : s₂.reg .esp = s.reg .esp - 4 := by
    rw [hs₂, setReg_of_ne (by decide), hs₁, pushed_esp]
  have hkept₂ : ∀ r, r ≠ .esp → r ≠ .ebp → s₂.reg r = s.reg r := fun r hr hr' => by
    rw [hs₂, setReg_of_ne hr', hs₁, pushed_reg _ hr]
  have halign₂ : Aligned (s₂.reg .esp) := hesp₂ ▸ halign.sub (by decide)
  have hesp₃ : s₃.reg .esp = top := by rw [hs₃, pushed_esp, hesp₂, htop]
  have halign₃ : Aligned top := htop ▸ (halign.sub (by decide)).sub (by decide)
  have hkept₃ : ∀ r, r ≠ .esp → r ≠ .ebp → s₃.reg r = s.reg r := fun r hr hr' => by
    rw [hs₃, pushed_reg _ hr, hkept₂ r hr hr']
  have harg₃ : s₃.mem top = arg := by rw [hs₃, htop, ← hesp₂, pushed_top]
  have hexec₁ : (Instr.pushl .ebp).exec s = some s₁ := by rw [hs₁, Instr.exec, push_eq halign]
  have hexec₂ : (Instr.movl (.reg .esp) (.reg .ebp)).exec s₁ = some s₂ := by rw [hs₂]; rfl
  have hexec₃ : (Instr.pushl .edx).exec s₂ = some s₃ := by
    rw [hs₃, Instr.exec, hkept₂ .edx (by decide) (by decide), hedx, push_eq halign₂]
  have hne : top ≠ top - 4 := by bv_omega
  have hback : top - 4 + 4 = top := BitVec.sub_add_cancel _ _
  refine .exec hexec₁ (.exec hexec₂ (.exec hexec₃ ?_))
  -- `InterruptEnable`
  refine .call (hesp₃ ▸ halign₃) ((hkept₃ .ecx (by decide) (by decide)).trans hecx)
    fun ra₁ => ⟨trivial, fun s₄ hcall₁ => ?_⟩
  have hesp₄ : s₄.reg .esp = top := by rw [hconv.esp hcall₁, pushed_esp, hesp₃, hback]
  have hsaved₄ : ∀ r, r = .ebx ∨ r = .esi ∨ r = .edi ∨ r = .ebp → r ≠ .esp →
      s₄.reg r = s₃.reg r := fun r hr hr' => by
    rw [hconv.kept hcall₁ r hr, pushed_reg _ hr']
  have harg₄ : s₄.mem top = arg := by
    have := hkeep _ _ hcall₁
    rwa [pushed_esp, hesp₃, hback, pushed_mem _ (hesp₃ ▸ hne), harg₃] at this
  -- the function of the thread
  have hesi₄ : s₄.reg .esi = func := by
    rw [hsaved₄ .esi (by decide) (by decide), hkept₃ .esi (by decide) (by decide), hesi]
  refine .call (hesp₄ ▸ halign₃) hesi₄ fun ra₂ => ⟨?_, fun s₅ hcall₂ => ?_⟩
  · rw [pushed_esp, hesp₄, hback, pushed_mem _ (hesp₄ ▸ hne), harg₄]
  have hesp₅ : s₅.reg .esp = top := by rw [hconv.esp hcall₂, pushed_esp, hesp₄, hback]
  -- `ThreadFinish`, and nothing after it
  have hedi₅ : s₅.reg .edi = rt.threadFinish := by
    rw [hconv.kept hcall₂ .edi (by decide), pushed_reg _ (by decide),
      hsaved₄ .edi (by decide) (by decide), hkept₃ .edi (by decide) (by decide), hedi]
  refine .call (hesp₅ ▸ halign₃) hedi₅ fun ra₃ => ⟨trivial, fun s₆ _ => ?_⟩
  simp [Performs]

/-- A thread that no action dispatches or makes anew keeps its registers. -/
theorem Threads.run_context (rt : Routines) {acts : List Action} (hcur : th.current ≠ t)
    (hacts : ∀ act ∈ acts, (∀ ra, act ≠ .switch t ra) ∧
      ∀ stack func arg, act ≠ .fork t stack func arg) :
    (th.run rt acts).context t = th.context t ∧ (th.run rt acts).current ≠ t := by
  induction acts generalizing th with
  | nil => exact ⟨rfl, hcur⟩
  | cons act acts ih =>
      obtain ⟨hswitch, hfork⟩ := hacts act List.mem_cons_self
      have hstep : (th.exec rt act).context t = th.context t ∧ (th.exec rt act).current ≠ t := by
        cases act with
        | work context stores => exact ⟨Function.update_of_ne hcur.symm _ _, hcur⟩
        | switch next ra =>
            exact ⟨Function.update_of_ne hcur.symm _ _, fun h => hswitch ra (h ▸ rfl)⟩
        | fork u stack func arg =>
            refine ⟨Function.update_of_ne ?_ _ _, hcur⟩
            rintro rfl
            exact hfork stack func arg rfl
        | delete u raw => exact ⟨rfl, hcur⟩
      obtain ⟨hctx, hcur'⟩ := ih hstep.2 fun act' h => hacts act' (List.mem_cons_of_mem act h)
      exact ⟨hctx.trans hstep.1, hcur'⟩

/-- However many switches there are between the other threads, a new thread is dispatched in
`ThreadRoot`, with its routines in the registers and its stack under the argument. -/
theorem fork_begins (hsave : Aligned eaxSave) (hr : Represents eaxSave h th)
    (hp : th.Placed eaxSave) {acts : List Action}
    (hd : th.Disciplined rt eaxSave (.fork t stack func arg :: (acts ++ [.switch t ra])))
    (hfirst : ∀ act ∈ acts, (∀ ra, act ≠ .switch t ra) ∧
      ∀ stack func arg, act ≠ .fork t stack func arg)
    (hconv : Conventional callee)
    (hkeep : ∀ s s', callee rt.interruptEnable s s' →
      s'.mem (s.reg .esp + 4) = s.mem (s.reg .esp + 4)) :
    ∃ h', h.run rt eaxSave (.fork t stack func arg :: (acts ++ [.switch t ra])) = some h' ∧
      h'.current = t ∧ h'.context.eip = rt.threadRoot ∧
        Performs callee (rootCalls rt func arg) threadRootCode ⟨h'.context.reg, h'.mem⟩ := by
  obtain ⟨h', hrun, hr'⟩ := hr.run hp hsave hd
  obtain ⟨hfork, hd'⟩ := hd
  have hne : th.current ≠ t := fun heq => hfork.1 (heq ▸ hp.current)
  have hne' : (th.exec rt (.fork t stack func arg)).current ≠ t := hne
  obtain ⟨hctx, hcur⟩ := Threads.run_context rt hne' hfirst
  have hstart : (th.exec rt (.fork t stack func arg)).context t =
      .start rt t stack func arg th.mem := Function.update_self ..
  -- the last action dispatches the thread
  have hend : th.run rt (.fork t stack func arg :: (acts ++ [.switch t ra])) =
      ((th.exec rt (.fork t stack func arg)).run rt acts).exec rt (.switch t ra) :=
    List.foldl_concat ..
  rw [hend] at hr'
  have hcontext : h'.context = .start rt t stack func arg th.mem := by
    rw [hr'.context, ← hstart, ← hctx]
    exact Function.update_of_ne hcur.symm _ _
  refine ⟨h', hrun, hr'.current, by rw [hcontext]; rfl, ?_⟩
  rw [hcontext]
  have halign : Aligned (stack + BitVec.ofNat 32 (4 * (StackSize - 4))) :=
    hfork.2.2.1.add (by decide)
  exact ThreadRoot_calls hconv hkeep halign rfl rfl rfl rfl

/-- The functions return at once. -/
theorem boot_begins : ∃ h', bootHost.run bootRoutines 0x500 forkAndSwitch = some h' ∧
    h'.current = 0x2000 ∧ h'.context.eip = 0x10 ∧
      Performs (fun _ s s' => s' = s.setReg .esp (s.reg .esp + 4))
        [(0x20, fun _ => True), (0x77, fun s => s.mem (s.reg .esp + 4) = 5), (0x30, fun _ => True)]
        threadRootCode ⟨h'.context.reg, h'.mem⟩ := by
  obtain ⟨hfork, hself, hswitch, -⟩ := boot_disciplined
  have hdisc : bootThreads.Disciplined bootRoutines 0x500
      (.fork 0x2000 0x200000 0x77 5 :: ([.switch 0x1000 0x40] ++ [.switch 0x2000 0x44])) :=
    ⟨hfork, hself, hswitch, trivial⟩
  refine fork_begins (by decide) bootHost_represents bootThreads_placed hdisc ?_ ⟨?_, ?_⟩ ?_
  · rintro act hact
    rw [List.mem_singleton.1 hact]
    exact ⟨by simp, by simp⟩
  · rintro f s s' rfl
    exact setReg_self _
  · rintro f s s' rfl r (rfl | rfl | rfl | rfl) <;> exact setReg_of_ne (by decide) _
  · rintro s s' rfl
    rfl

end

end Switch

end Nachos
