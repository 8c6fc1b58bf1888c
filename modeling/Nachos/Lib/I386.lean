import Mathlib.Data.BitVec
import Mathlib.Logic.Function.Basic

/-!
# A part of the i386

Moves, pushes, pops, calls and returns, on the registers and on a memory of words. The address of a
word is that of its first byte and has to be a multiple of 4, so that two words are the same or do
not overlap; nothing happens at another address.
-/

namespace I386

abbrev Word := BitVec 32

inductive Reg where
  | eax | ebx | ecx | edx | esi | edi | ebp | esp
  deriving DecidableEq, Repr

def Aligned (a : Word) : Prop := a.toNat % 4 = 0

instance (a : Word) : Decidable (Aligned a) := inferInstanceAs (Decidable (_ = _))

structure State where
  reg : Reg → Word
  mem : Word → Word

inductive Operand where
  | reg (r : Reg)
  | disp (displacement : Word) (base : Reg)
  | abs (addr : Word)

/-- `call` is an indirect call. -/
inductive Instr where
  | movl (src dst : Operand)
  | pushl (src : Reg)
  | popl (dst : Reg)
  | call (target : Reg)
  | ret

namespace State

def setReg (s : State) (r : Reg) (value : Word) : State :=
  { s with reg := Function.update s.reg r value }

def setMem (s : State) (a value : Word) : State :=
  { s with mem := Function.update s.mem a value }

def load (s : State) (a : Word) : Option Word := if Aligned a then some (s.mem a) else none

def store (s : State) (a value : Word) : Option State :=
  if Aligned a then some (s.setMem a value) else none

def read (s : State) : Operand → Option Word
  | .reg r => some (s.reg r)
  | .disp d base => s.load (s.reg base + d)
  | .abs a => s.load a

def write (s : State) (value : Word) : Operand → Option State
  | .reg r => some (s.setReg r value)
  | .disp d base => s.store (s.reg base + d) value
  | .abs a => s.store a value

/-- The state with `value` on the top of the stack. -/
def pushed (s : State) (value : Word) : State :=
  (s.setReg .esp (s.reg .esp - 4)).setMem (s.reg .esp - 4) value

def push (s : State) (value : Word) : Option State :=
  (s.setReg .esp (s.reg .esp - 4)).store (s.reg .esp - 4) value

/-- The word on the top of the stack, and the state without it. -/
def pop (s : State) : Option (Word × State) :=
  match s.load (s.reg .esp) with
  | none => none
  | some value => some (value, s.setReg .esp (s.reg .esp + 4))

end State

/-- The instructions that go on to the next one. -/
def Instr.exec (s : State) : Instr → Option State
  | movl src dst =>
      match s.read src with
      | none => none
      | some value => s.write value dst
  | pushl src => s.push (s.reg src)
  | popl dst =>
      match s.pop with
      | none => none
      | some (value, s') => some (s'.setReg dst value)
  | call _ => none
  | ret => none

def run (code : List Instr) (s : State) : Option State := code.foldlM Instr.exec s

variable {s s' : State} {code code' : List Instr} {a b : Word} {r : Reg}

theorem run_cons (i : Instr) : run (i :: code) s = (i.exec s).bind (run code) := rfl

theorem run_append (h : run code s = some s') : run (code ++ code') s = run code' s' := by
  rw [run, List.foldlM_append]
  change (run code s).bind (run code') = _
  rw [h, Option.bind_some]

/-! ## Addresses -/

theorem Aligned.add (ha : Aligned a) (hb : Aligned b) : Aligned (a + b) := by
  unfold Aligned at *
  rw [BitVec.toNat_add]
  omega

theorem Aligned.sub (ha : Aligned a) (hb : Aligned b) : Aligned (a - b) := by
  unfold Aligned at *
  rw [BitVec.toNat_sub]
  omega

theorem load_eq (h : Aligned a) : s.load a = some (s.mem a) := if_pos h

theorem store_eq (h : Aligned a) (value : Word) : s.store a value = some (s.setMem a value) :=
  if_pos h

/-! ## Calls -/

/-- The code makes the calls of the list and no other, each as soon as the one before it has
returned: what is called, and what holds when it starts, with its return address on the stack.
`callee f s s'` is that the code at `f` starts in `s` and returns in `s'`. -/
def Performs (callee : Word → State → State → Prop) :
    List (Word × (State → Prop)) → List Instr → State → Prop
  | [], code, _ => ∀ i ∈ code, ∀ r, i ≠ .call r
  | (f, P) :: calls, code, s => ∃ pre r post s₁, code = pre ++ .call r :: post ∧
      run pre s = some s₁ ∧ s₁.reg r = f ∧ ∀ ra, ∃ s₂, s₁.push ra = some s₂ ∧ P s₂ ∧
        ∀ s₃, callee f s₂ s₃ → Performs callee calls post s₃

/-- What every function keeps for its caller. -/
structure Conventional (callee : Word → State → State → Prop) : Prop where
  esp : ∀ {f s s'}, callee f s s' → s'.reg .esp = s.reg .esp + 4
  kept : ∀ {f s s'}, callee f s s' → ∀ r, r = .ebx ∨ r = .esi ∨ r = .edi ∨ r = .ebp →
    s'.reg r = s.reg r

variable {callee : Word → State → State → Prop} {calls : List (Word × (State → Prop))}

/-- What goes on to the next instruction calls nothing. -/
theorem Performs.exec {i : Instr} (hexec : i.exec s = some s') (h : Performs callee calls code s') :
    Performs callee calls (i :: code) s := by
  cases calls with
  | nil =>
      refine List.forall_mem_cons.2 ⟨?_, h⟩
      rintro r rfl
      cases hexec
  | cons call calls =>
      obtain ⟨pre, r, post, s₁, rfl, hrun, h⟩ := h
      refine ⟨i :: pre, r, post, s₁, rfl, ?_, h⟩
      rw [run_cons, hexec]
      exact hrun

theorem push_eq (h : Aligned (s.reg .esp)) (value : Word) :
    s.push value = some (s.pushed value) :=
  store_eq (h.sub (by decide)) value

theorem Performs.call {f : Word} {P : State → Prop} (halign : Aligned (s.reg .esp))
    (hf : s.reg r = f) (h : ∀ ra, P (s.pushed ra) ∧
      ∀ s', callee f (s.pushed ra) s' → Performs callee calls code s') :
    Performs callee ((f, P) :: calls) (.call r :: code) s :=
  ⟨[], r, code, s, rfl, rfl, hf, fun ra => ⟨_, push_eq halign ra, h ra⟩⟩

/-! ## Moves -/

@[simp] theorem setReg_mem (value : Word) : (s.setReg r value).mem = s.mem := rfl

@[simp] theorem setReg_self (value : Word) : (s.setReg r value).reg r = value :=
  Function.update_self ..

theorem setReg_of_ne {r' : Reg} (h : r' ≠ r) (value : Word) :
    (s.setReg r value).reg r' = s.reg r' := Function.update_of_ne h _ _

@[simp] theorem setMem_reg (value : Word) : (s.setMem a value).reg = s.reg := rfl

@[simp] theorem setMem_self (value : Word) : (s.setMem a value).mem a = value :=
  Function.update_self ..

theorem setMem_of_ne (h : b ≠ a) (value : Word) : (s.setMem a value).mem b = s.mem b :=
  Function.update_of_ne h _ _

@[simp] theorem pushed_esp (value : Word) : (s.pushed value).reg .esp = s.reg .esp - 4 := by
  rw [State.pushed, setMem_reg, setReg_self]

theorem pushed_reg (value : Word) (hr : r ≠ .esp) : (s.pushed value).reg r = s.reg r :=
  setReg_of_ne hr _

theorem pushed_top (value : Word) : (s.pushed value).mem (s.reg .esp - 4) = value :=
  setMem_self _

theorem pushed_mem (value : Word) (hne : a ≠ s.reg .esp - 4) : (s.pushed value).mem a = s.mem a :=
  setMem_of_ne hne _

variable {d v : Word} {base : Reg}

theorem run_store (haddr : s.reg base + d = a) (ha : Aligned a) (hv : s.reg r = v) :
    run (.movl (.reg r) (.disp d base) :: code) s = run code (s.setMem a v) := by
  subst haddr hv
  rw [run_cons]
  exact congrArg (Option.bind · (run code)) (store_eq ha _)

theorem run_store_abs (ha : Aligned a) (hv : s.reg r = v) :
    run (.movl (.reg r) (.abs a) :: code) s = run code (s.setMem a v) := by
  subst hv
  rw [run_cons]
  exact congrArg (Option.bind · (run code)) (store_eq ha _)

theorem run_load (haddr : s.reg base + d = a) (ha : Aligned a) (hv : s.mem a = v) :
    run (.movl (.disp d base) (.reg r) :: code) s = run code (s.setReg r v) := by
  subst haddr hv
  simp only [run_cons, Instr.exec, State.read, load_eq ha, State.write, Option.bind_some]

theorem run_load_abs (ha : Aligned a) (hv : s.mem a = v) :
    run (.movl (.abs a) (.reg r) :: code) s = run code (s.setReg r v) := by
  subst hv
  simp only [run_cons, Instr.exec, State.read, load_eq ha, State.write, Option.bind_some]

/-! ## Tables of registers -/

/-- The registers `rs` are stored in a table, `offset` bytes behind the address in `eax`. -/
def storing (offset : Reg → Word) (rs : List Reg) : List Instr :=
  rs.map fun r => .movl (.reg r) (.disp (offset r) .eax)

def loading (offset : Reg → Word) (rs : List Reg) : List Instr :=
  rs.map fun r => .movl (.disp (offset r) .eax) (.reg r)

/-- The memory after `storing`. -/
def stored (offset : Reg → Word) (reg : Reg → Word) (base : Word) (rs : List Reg)
    (mem : Word → Word) : Word → Word :=
  rs.foldl (fun m r => Function.update m (base + offset r) (reg r)) mem

variable {offset : Reg → Word} {rs : List Reg} {base : Word} {mem : Word → Word} {reg : Reg → Word}

theorem run_storing (h : ∀ r ∈ rs, Aligned (s.reg .eax + offset r)) :
    run (storing offset rs) s =
      some { s with mem := stored offset s.reg (s.reg .eax) rs s.mem } := by
  induction rs generalizing s with
  | nil => rfl
  | cons r rs ih =>
      rw [storing, List.map_cons, run_store rfl (h r List.mem_cons_self) rfl]
      exact ih fun r' hr' => h r' (List.mem_cons_of_mem r hr')

theorem stored_of_ne (h : ∀ r ∈ rs, a ≠ base + offset r) :
    stored offset reg base rs mem a = mem a := by
  induction rs generalizing mem with
  | nil => rfl
  | cons r rs ih =>
      rw [stored, List.foldl_cons]
      exact (ih fun r' hr' => h r' (List.mem_cons_of_mem r hr')).trans
        (Function.update_of_ne (h r List.mem_cons_self) _ _)

/-- Every register of the list is found in its place. -/
theorem stored_of_mem (hinj : Function.Injective offset) (hr : r ∈ rs) :
    stored offset reg base rs mem (base + offset r) = reg r := by
  induction rs generalizing mem with
  | nil => cases hr
  | cons r' rs ih =>
      rw [stored, List.foldl_cons]
      by_cases hmem : r ∈ rs
      · exact ih hmem
      · obtain rfl : r = r' := (List.mem_cons.1 hr).resolve_right hmem
        refine (stored_of_ne ?_).trans (Function.update_self ..)
        rintro r' hr' heq
        have : r = r' := hinj ((BitVec.add_right_inj base).1 heq)
        exact hmem (this ▸ hr')

/-- `eax` is not among the registers, so the base stays. -/
theorem run_loading (hrs : Reg.eax ∉ rs) (h : ∀ r ∈ rs, Aligned (s.reg .eax + offset r)) :
    ∃ s', run (loading offset rs) s = some s' ∧ s'.mem = s.mem ∧
      (∀ r ∈ rs, s'.reg r = s.mem (s.reg .eax + offset r)) ∧ ∀ r, r ∉ rs → s'.reg r = s.reg r := by
  induction rs generalizing s with
  | nil => exact ⟨s, rfl, rfl, fun _ h => absurd h List.not_mem_nil, fun _ _ => rfl⟩
  | cons r rs ih =>
      obtain ⟨hne, hrs⟩ := not_or.1 (mt List.mem_cons.2 hrs)
      have heax : (s.setReg r (s.mem (s.reg .eax + offset r))).reg .eax = s.reg .eax :=
        Function.update_of_ne hne _ _
      obtain ⟨s', hrun, hmem, hloaded, hkept⟩ :=
        ih (s := s.setReg r (s.mem (s.reg .eax + offset r))) hrs fun r' hr' => by
          rw [heax]
          exact h r' (List.mem_cons_of_mem r hr')
      rw [heax] at hloaded
      refine ⟨s', ?_, hmem, ?_, ?_⟩
      · rw [loading, List.map_cons, run_load rfl (h r List.mem_cons_self) rfl]
        exact hrun
      · intro r' hr'
        by_cases hmem' : r' ∈ rs
        · exact hloaded r' hmem'
        · obtain rfl : r' = r := (List.mem_cons.1 hr').resolve_right hmem'
          exact (hkept r' hmem').trans (Function.update_self ..)
      · intro r' hr'
        obtain ⟨hne', hmem'⟩ := not_or.1 (mt List.mem_cons.2 hr')
        exact (hkept r' hmem').trans (Function.update_of_ne hne' _ _)

end I386
