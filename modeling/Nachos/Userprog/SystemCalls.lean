import Nachos.Userprog.UserRegisters

/-!
# The return from a system call

`ExceptionHandler` of `exception.cc` and what it does to the registers, over the user threads and
the machine. A handler goes from one call of a kernel routine to the next; `Exec2`, `Fork2`
and `Join2` have their steps in the program of the user threads, and the values that the routines
compute are said by the moves. While it copies user memory a handler may raise page faults of its
own.

Of every thread it is known whether it is handling a system call, or has come back from one and
not run an instruction since: with the registers that it had at the SYSCALL and the value that the
call has computed.
-/

namespace Nachos

open Lib

namespace UserThreads

open Kernel

/-- The system calls that come back. -/
inductive SysCall where
  | exec
  | join
  | read
  | write
  | fork
  | yield
  deriving DecidableEq

namespace SysCall

/-- The number of the call in `syscall.h`. -/
def code : SysCall → BitVec 32
  | .exec => 2
  | .join => 3
  | .read => 6
  | .write => 7
  | .fork => 9
  | .yield => 10

/-- The branches of `ExceptionHandler`: what is written to register 2 when the call has computed
`value`. -/
def result (value : ℤ) : SysCall → Option ℤ
  | .exec => some value
  | .read => none
  | .write => none
  | .join => some value
  | .fork => none
  | .yield => none

/-- The call is declared with a result. -/
def declaresResult : SysCall → Bool
  | .exec => true
  | .join => true
  | .read => true
  | _ => false

end SysCall

/-- An instruction that raises no exception. The register of a load is a field of five bits. -/
structure Instruction where
  writes : Registers → Registers
  load_lt : ∀ r, (writes r LoadReg).toNat < 32

/-- `RaiseException` up to its call of `ExceptionHandler`. -/
def raised (badVAddr : BitVec 32) (r : Registers) : Registers :=
  delayedLoad 0 0 (Function.update r BadVAddrReg badVAddr)

/-- A page fault that the kernel raises itself, if it does. -/
def nested : Option (BitVec 32) → Registers → Registers
  | none, r => r
  | some badVAddr, r => raised badVAddr r

/-- Where a thread is with its exceptions. -/
inductive Trap where
  | user
  /-- The user program has raised an exception that is not a system call. -/
  | fault
  | call (c : SysCall) (r : Registers)
  | returned (c : SysCall) (r : Registers) (value : ℤ)

/-- What a handler does to the registers before it returns. After a page fault the instruction is
run again. -/
def Trap.ends (value : ℤ) : Trap → Registers → Registers
  | .call c _ => returnRegisters (c.result value)
  | _ => id

/-- How far a handler goes. -/
inductive Stage where
  /-- To a call of another kernel routine, which may be one of a page fault. -/
  | calls (fault : Option (BitVec 32)) (o : Call Pc)
  | execs (child : Tid) (willJoin : ℤ) (numPages : ℕ)
  | forks (funcPtr : BitVec 32)
  | joins (id : ℤ)
  | exits (status : ℤ)
  | returns (value : ℤ)

namespace Stage

def act (before : Registers → Registers) (trap : Trap) : Stage → Act
  | .calls fault o => .other o (nested fault ∘ before)
  | .execs child willJoin numPages => .exec child willJoin numPages
  | .forks funcPtr => .fork funcPtr
  | .joins id => .join id
  | .exits status => .exit status
  | .returns value => .back (trap.ends value ∘ before)

/-- The code that the stage belongs to. -/
def belongs : Stage → Trap → Bool
  | .execs _ _ _, .call c _ => c = .exec
  | .forks _, .call c _ => c = .fork
  | .joins _, .call c _ => c = .join
  | .execs _ _ _, _ => false
  | .forks _, _ => false
  | .joins _, _ => false
  | _, _ => true

def trap (trap : Trap) : Stage → Trap
  | .exits _ => .user
  | .returns value =>
      match trap with
      | .call c r => .returned c r value
      | _ => .user
  | _ => trap

end Stage

/-- What happens next. -/
inductive Move where
  /-- A part of a kernel routine, of the start-up code or of `Exec2`, `Fork2`, `Join2` and
  `SysCallExit`. -/
  | other (lab : Label Act)
  | instruction (i : Instruction)
  /-- An instruction that raises an exception that is not a system call. -/
  | fault (badVAddr : BitVec 32) (stage : Stage)
  /-- The instruction SYSCALL. -/
  | call (c : SysCall) (stage : Stage)
  | goOn (stage : Stage)

/-- The user threads, and where they are with their exceptions. -/
structure Calls where
  state : State
  trap : Tid → Trap

namespace Calls

/-- The current thread is in its own code. -/
def outside (s : Calls) : Bool := (s.state.kernel.stack s.state.kernel.currentThread).isEmpty

def pc (s : Calls) : Pc := s.state.kernel.pc s.state.kernel.currentThread

/-- What the current thread does, and where it is with its exceptions then. -/
def plan (s : Calls) : Move → Option (Label Act × Trap)
  | .other lab =>
      if s.outside = false ∨ (s.pc ≠ .run ∧ s.pc ≠ .trap) then
        some (lab, s.trap s.state.kernel.currentThread)
      else
        none
  | .instruction i =>
      if s.outside = true ∧ s.pc = .run then some (.act (.back i.writes), .user) else none
  | .fault badVAddr stage =>
      if s.outside = true ∧ s.pc = .run ∧ stage.belongs .fault then
        some (.act (stage.act (raised badVAddr) .fault), stage.trap .fault)
      else
        none
  | .call c stage =>
      let trap := Trap.call c s.state.machine.registers
      if s.outside = true ∧ s.pc = .run ∧ raiseRegisters s.state.machine.registers 2 = c.code ∧
          stage.belongs trap then
        some (.act (stage.act raiseRegisters trap), stage.trap trap)
      else
        none
  | .goOn stage =>
      let trap := s.trap s.state.kernel.currentThread
      if s.outside = true ∧ s.pc = .trap ∧ stage.belongs trap then
        some (.act (stage.act id trap), stage.trap trap)
      else
        none

end Calls

/-- `Exec2`, `Fork2` or `Join2` has returned when the thread is back in its program. -/
def Trap.close (pc : Pc) (result : Option ℤ) : Trap → Trap
  | .call c r => if pc = .run then .returned c r (result.getD 0) else .call c r
  | trap => trap

def Calls.step (s : Calls) (mv : Move) : Except Stop Calls :=
  match s.plan mv with
  | none => .error .disabled
  | some (lab, trap) =>
      match s.state.step lab with
      | .error e => .error e
      | .ok state =>
          let t := s.state.kernel.currentThread
          .ok
            { state := state
              trap := Function.update s.trap t
                (trap.close (state.kernel.pc t) (state.kernel.data.result t)) }

def Calls.initial (numPages : ℕ) (joinValue : ℕ → ℤ) (initialValue : ℕ → ℤ) (m : Machine) :
    Calls where
  state := State.initial numPages joinValue initialValue m
  trap := fun _ => .user

/-! ## Registers without a delayed load -/

/-- No load is pending, and the register 0 holds 0. -/
def NoLoad (r : Registers) : Prop := r 0 = 0 ∧ r LoadReg = 0 ∧ r LoadValueReg = 0

variable {r r' base : Registers} {c : SysCall} {value : ℤ}

theorem noLoad_delayedLoad (r : Registers) : NoLoad (delayedLoad 0 0 r) := by
  refine ⟨?_, ?_, ?_⟩
  · simp [delayedLoad]
  · simp [delayedLoad, LoadReg, LoadValueReg]
  · simp [delayedLoad, LoadValueReg]

theorem NoLoad.delayedLoad (h : NoLoad r) : delayedLoad 0 0 r = r :=
  settled_of_zero h.1 h.2.1 h.2.2

theorem NoLoad.load_lt (h : NoLoad r) : (r LoadReg).toNat < 32 := by
  rw [h.2.1]
  decide

theorem NoLoad.update (h : NoLoad r) {i : Fin 40} (x : BitVec 32)
    (hi : i ≠ 0 ∧ i ≠ LoadReg ∧ i ≠ LoadValueReg) : NoLoad (Function.update r i x) := by
  refine ⟨?_, ?_, ?_⟩
  · rw [Function.update_of_ne hi.1.symm, h.1]
  · rw [Function.update_of_ne hi.2.1.symm, h.2.1]
  · rw [Function.update_of_ne hi.2.2.symm, h.2.2]

theorem NoLoad.returnRegisters (h : NoLoad r) (result : Option ℤ) :
    NoLoad (returnRegisters result r) := by
  unfold UserThreads.returnRegisters
  cases result with
  | none => exact (h.update _ (by decide)).update _ (by decide)
  | some value => exact ((h.update _ (by decide)).update _ (by decide)).update _ (by decide)

/-- The registers are the same, but for the bad address. -/
def Agrees (r r' : Registers) : Prop := ∀ i, i ≠ BadVAddrReg → r' i = r i

theorem Agrees.refl (r : Registers) : Agrees r r := fun _ _ => rfl

theorem Agrees.noLoad (h : Agrees r r') (hr : NoLoad r) : NoLoad r' := by
  refine ⟨?_, ?_, ?_⟩
  · rw [h _ (by decide), hr.1]
  · rw [h _ (by decide), hr.2.1]
  · rw [h _ (by decide), hr.2.2]

theorem Agrees.delayedLoad (h : Agrees r r') (hr : NoLoad r) : Agrees r (delayedLoad 0 0 r') := by
  rw [(h.noLoad hr).delayedLoad]
  exact h

/-- A page fault in the kernel leaves the registers of the program alone. -/
theorem Agrees.nested (h : Agrees r r') (hr : NoLoad r) (fault : Option (BitVec 32)) :
    Agrees r (nested fault r') := by
  cases fault with
  | none => exact h
  | some badVAddr =>
      have hset : Agrees r (Function.update r' BadVAddrReg badVAddr) := by
        intro i hi
        rw [Function.update_of_ne hi]
        exact h i hi
      exact hset.delayedLoad hr

/-! ## What a thread in a system call has left -/

/-- The system call whose code the point is in. -/
def Pc.call : Pc → Option SysCall
  | .execForked _ => some .exec
  | .execAlloc _ => some .exec
  | .execReturn _ => some .exec
  | .forkPage _ _ _ => some .fork
  | .forkFound _ _ _ _ => some .fork
  | .forkFree _ _ => some .fork
  | .forkFreed _ _ => some .fork
  | .forkAlloc _ _ => some .fork
  | .forkFork _ _ => some .fork
  | .forkReturn => some .fork
  | .joinGet _ => some .join
  | .joinTest _ => some .join
  | .joinRead _ => some .join
  | _ => none

/-- A thread that handles a system call has left the registers that it had at the SYSCALL, and one
that has come back those that `ExceptionHandler` makes of them. -/
def Trap.Holds (pc : Pc) (own : Registers) : Trap → Prop
  | .user => True
  | .fault => True
  | .call c r => (pc = .trap ∨ pc.call = some c) ∧ raiseRegisters r 2 = c.code ∧
      (r LoadReg).toNat < 32 ∧ Agrees (raiseRegisters r) own
  | .returned c r value => pc = .run ∧ raiseRegisters r 2 = c.code ∧ (r LoadReg).toNat < 32 ∧
      ∃ base, Agrees (raiseRegisters r) base ∧ own = returnRegisters (c.result value) base

theorem Trap.Holds.close {pc : Pc} {own : Registers} {trap : Trap} (h : trap.Holds pc own)
    (result : Option ℤ) : (trap.close pc result).Holds pc own := by
  cases trap with
  | call c r =>
      have hpc : pc ≠ .run := by
        rcases h.1 with rfl | hcall
        · exact Pc.noConfusion
        · rintro rfl
          cases hcall
      rw [Trap.close, if_neg hpc]
      exact h
  | _ => exact h

section Next

variable {t : Tid} {pc pc' : Pc} {d d' : Data} {view : View} {o : Call Pc}

/-- The thread goes on in the code of `c`, or returns what `ExceptionHandler` writes. -/
def Proceeds (t : Tid) (c : SysCall) (pc' : Pc) (d' : Data) : Prop :=
  pc'.call = some c ∨ (pc' = .run ∧ ∃ value, d'.result t = c.result value)

theorem proceeds_of_sysReturn {result : Option ℤ} (h : sysReturn t d result = (o, pc', d'))
    (hresult : ∃ value, result = c.result value) : Proceeds t c pc' d' := by
  cases h
  refine .inr ⟨rfl, ?_⟩
  obtain ⟨value, rfl⟩ := hresult
  exact ⟨value, by simp [Data.setResult]⟩

theorem proceeds_of_forkLoop {funcPtr : BitVec 32} {newTable i : ℕ}
    (h : forkLoop t d funcPtr newTable i = some (o, pc', d')) : Proceeds t .fork pc' d' := by
  unfold forkLoop at h
  split at h
  · split at h <;> cases h
    exact .inl rfl
  · cases h
    exact .inl rfl

theorem proceeds_of_freeLoop {i j : ℕ} (h : freeLoop t d i j = (o, pc', d')) :
    Proceeds t .fork pc' d' := by
  unfold freeLoop at h
  split at h
  · cases h
    exact .inl rfl
  · exact proceeds_of_sysReturn h ⟨0, rfl⟩

theorem proceeds_of_joinTest {freed : ℤ} {joinThread : Option ℕ}
    (h : joinTest t d view freed joinThread = some (o, pc', d')) : Proceeds t .join pc' d' := by
  cases joinThread with
  | none => exact proceeds_of_sysReturn (Option.some.inj h) ⟨_, rfl⟩
  | some object =>
      simp only [joinTest] at h
      split at h
      · cases h
      · rename_i u _
        by_cases hcan : (if view.deleted u = true then freed else view.join u) = 0
        · rw [if_pos hcan] at h
          exact proceeds_of_sysReturn (Option.some.inj h) ⟨_, rfl⟩
        · rw [if_neg hcan] at h
          cases h
          exact .inl rfl

theorem proceeds_of_goOn {freed : ℤ} (hcall : pc.call = some c)
    (h : goOn t d view freed pc = some (o, pc', d')) : Proceeds t c pc' d' := by
  cases pc with
  | execForked child =>
      cases hcall
      cases h
      exact .inl rfl
  | execAlloc child =>
      cases hcall
      cases h
      exact .inl rfl
  | execReturn processID =>
      cases hcall
      simp only [goOn] at h
      split at h
      · cases h
      · exact proceeds_of_sysReturn (Option.some.inj h) ⟨_, rfl⟩
  | forkFound funcPtr newTable i found =>
      cases hcall
      cases found with
      | true => exact proceeds_of_forkLoop h
      | false => exact proceeds_of_freeLoop (Option.some.inj h)
  | forkFree i j =>
      cases hcall
      cases h
      exact .inl rfl
  | forkFreed i j =>
      cases hcall
      exact proceeds_of_freeLoop (Option.some.inj h)
  | forkAlloc funcPtr forkedThread =>
      cases hcall
      cases h
      exact .inl rfl
  | forkReturn =>
      cases hcall
      exact proceeds_of_sysReturn (Option.some.inj h) ⟨0, rfl⟩
  | joinGet id =>
      cases hcall
      cases h
      exact .inl rfl
  | joinTest joinThread =>
      cases hcall
      exact proceeds_of_joinTest h
  | joinRead joinThread =>
      cases hcall
      exact proceeds_of_sysReturn (Option.some.inj h) ⟨_, rfl⟩
  | forkPage funcPtr newTable i => cases h
  | forkFork funcPtr forkedThread => cases h
  | _ => cases hcall

/-- `Exec2`, `Fork2` and `Join2` go on or return. -/
theorem proceeds_of_next (hcall : pc.call = some c) {a : Act}
    (h : next t pc d view a = some (o, pc', d')) : Proceeds t c pc' d' := by
  have hcode : pc ≠ .loading ∧ pc ≠ .run ∧ pc ≠ .trap := by
    refine ⟨?_, ?_, ?_⟩ <;> rintro rfl <;> cases hcall
  cases a with
  | goOn freed => exact proceeds_of_goOn hcall h
  | page found =>
      cases pc with
      | forkPage funcPtr newTable i =>
          cases hcall
          cases h
          exact .inl rfl
      | _ => cases h
  | thread child =>
      cases pc with
      | forkFork funcPtr forkedThread =>
          cases hcall
          cases h
          exact .inl rfl
      | _ => cases h
  | _ =>
    cases pc with
    | loading => exact absurd rfl hcode.1
    | run => exact absurd rfl hcode.2.1
    | trap => exact absurd rfl hcode.2.2
    | _ => cases h

/-- Where a stage ends. -/
def Stage.Goes (pc' : Pc) : Stage → Prop
  | .calls _ _ => pc' = .trap
  | .execs _ _ _ => pc'.call = some .exec
  | .forks _ => pc'.call = some .fork
  | .joins _ => pc'.call = some .join
  | .exits _ => True
  | .returns _ => pc' = .run

/-- A handler goes where its stage says. -/
theorem next_stage (hpc : pc = .run ∨ pc = .trap) {before : Registers → Registers} {trap : Trap}
    {stage : Stage} (h : next t pc d view (stage.act before trap) = some (o, pc', d')) :
    stage.Goes pc' := by
  have huser : ∀ a, next t pc d view a = user t d a := by
    intro a
    rcases hpc with rfl | rfl <;> cases a <;> rfl
  cases stage with
  | calls fault o =>
      rw [Stage.act, huser] at h
      simp only [user] at h
      split at h <;> cases h
      rfl
  | execs child willJoin numPages =>
      rw [Stage.act, huser] at h
      cases h
      rfl
  | forks funcPtr =>
      rw [Stage.act, huser] at h
      rw [user, forkLoop_first] at h
      cases h
      rfl
  | joins id =>
      rw [Stage.act, huser] at h
      cases h
      rfl
  | exits status => trivial
  | returns value => exact next_back h

theorem next_back_eq_none (hpc : pc ≠ .loading ∧ pc ≠ .run ∧ pc ≠ .trap)
    {writes : Registers → Registers} : next t pc d view (.back writes) = none := by
  cases pc with
  | loading => exact absurd rfl hpc.1
  | run => exact absurd rfl hpc.2.1
  | trap => exact absurd rfl hpc.2.2
  | _ => rfl

theorem next_other_eq_none (hpc : pc ≠ .loading ∧ pc ≠ .run ∧ pc ≠ .trap) {o' : Call Pc}
    {writes : Registers → Registers} : next t pc d view (.other o' writes) = none := by
  cases pc with
  | loading => exact absurd rfl hpc.1
  | run => exact absurd rfl hpc.2.1
  | trap => exact absurd rfl hpc.2.2
  | _ => rfl

end Next

/-! ## Runs -/

section Steps

variable {s s' : State} {lab : Label Act} {t : Tid}

theorem State.own_eq (h : s.step lab = .ok s') :
    s'.machine.own = (s.machine.advance s.kernel lab s'.kernel).own := by
  rw [(State.step_eq_ok h).2]
  split <;> rfl

theorem State.own_of_ne (h : s.step lab = .ok s') (ht : t ≠ s.kernel.currentThread) :
    s'.machine.own t = s.machine.own t := by
  rw [State.own_eq h]
  exact (Machine.advance_of_ne lab ht).1

/-- A step of the current thread in its own code, or in a kernel routine. -/
theorem State.own_turn {d₀ : Data} {initialValue : ℕ → ℤ}
    (hr : Runs client (.start (some 0)) d₀ initialValue s.kernel) (h : s.step lab = .ok s') :
    (∃ a o pc', lab = .act a ∧ s.kernel.stack s.kernel.currentThread = [] ∧
      next s.kernel.currentThread (s.kernel.pc s.kernel.currentThread) s.kernel.data
        s.kernel.view a =
          some (o, pc', s'.kernel.data) ∧
        s'.kernel.pc s.kernel.currentThread = pc' ∧
          s'.machine.own s.kernel.currentThread = Machine.written s.kernel.data s'.kernel.data
            s.kernel.currentThread pc' a (s.kernel.pc s.kernel.currentThread)
              (if s.kernel.pc s.kernel.currentThread = .run then s.machine.registers
                else s.machine.own s.kernel.currentThread)) ∨
      s.kernel.stack s.kernel.currentThread ≠ [] ∧
        s'.kernel.pc s.kernel.currentThread = s.kernel.pc s.kernel.currentThread ∧
          s'.machine.own = s.machine.own := by
  have hkernel := (State.step_eq_ok h).1
  have hin : s.kernel.stack s.kernel.currentThread ≠ [] → s'.machine.own = s.machine.own := by
    intro hne
    rw [State.own_eq h]
    by_cases hsw : Switched s.kernel s.kernel.currentThread
    · rw [Machine.advance_of_switched lab hsw]
      rfl
    · exact (Machine.advance_of_kernel lab hne hsw).2.1
  rcases step_advances hr.placed.current_lt hr.inner hkernel with
    ⟨a, o, pc', rfl, hst, hnext, -, -, hadv⟩ | ⟨a, sems, rfl, -, hne, hq⟩ | ⟨hne, hq⟩
  · refine .inl ⟨a, o, pc', rfl, hst, hnext, hadv.self, ?_⟩
    have hown :
        s.machine.advance s.kernel (.act a) s'.kernel = s.machine.ownCode s.kernel a s'.kernel := by
      simp [Machine.advance, hst]
    rw [State.own_eq h, hown, Machine.ownCode_own_eq, hadv.self]
  · exact .inr ⟨hne, by rw [hq.pc], hin hne⟩
  · exact .inr ⟨hne, by rw [hq.pc], hin hne⟩

/-- Another thread stays where it is, or is new. -/
theorem State.pc_of_ne {d₀ : Data} {initialValue : ℕ → ℤ}
    (hr : Runs client (.start (some 0)) d₀ initialValue s.kernel) (h : s.step lab = .ok s')
    (ht : t ≠ s.kernel.currentThread) (hlt : t < s'.kernel.numThreads) :
    (t < s.kernel.numThreads ∧ s'.kernel.pc t = s.kernel.pc t) ∨
      (s.kernel.numThreads ≤ t ∧ ¬ Begun s'.kernel t) := by
  rcases step_turn hr.placed.current_lt hr.inner (State.step_eq_ok h).1 with
    ⟨a, o, pc, -, -, hturn, -, hadv⟩ | ⟨-, hq⟩
  · by_cases hold : t < s.kernel.numThreads
    · exact .inl ⟨hold, hadv.others t ht hold⟩
    · rcases hturn.pc_cases hadv hlt with ⟨heq, -⟩ | ⟨-, hold', -⟩ | ⟨func, hpc⟩
      · exact absurd heq ht
      · exact absurd hold' hold
      · exact .inr ⟨Nat.not_lt.1 hold, fun hb => hb func hpc⟩
  · exact .inl ⟨hq.numThreads ▸ hlt, by rw [hq.pc]⟩

theorem State.numThreads_le {d₀ : Data} {initialValue : ℕ → ℤ}
    (hr : Runs client (.start (some 0)) d₀ initialValue s.kernel) (h : s.step lab = .ok s') :
    s.kernel.numThreads ≤ s'.kernel.numThreads := by
  rcases step_turn hr.placed.current_lt hr.inner (State.step_eq_ok h).1 with
    ⟨a, o, pc, -, -, -, -, hadv⟩ | ⟨-, hq⟩
  · exact hadv.numThreads
  · exact Nat.le_of_eq hq.numThreads.symm

end Steps

section Handlers

variable {t : Tid} {pc pc' : Pc} {d d' : Data} {view : View} {o : Call Pc} {x : Registers}
  {trap : Trap}

theorem returnRegisters_load (result : Option ℤ) (r : Registers) :
    returnRegisters result r LoadReg = r LoadReg := by
  cases result <;> simp [returnRegisters, LoadReg, PCReg, NextPCReg]

theorem noLoad_startRegisters (numPages : ℕ) (funcPtr : Option (BitVec 32)) :
    NoLoad (startRegisters numPages funcPtr) := by
  rw [← settled_startRegisters numPages funcPtr]
  exact noLoad_delayedLoad _

/-- The registers of a handler between its stages. -/
def Trap.Ready (base : Registers) : Trap → Prop
  | .user => True
  | .fault => True
  | .call c r => raiseRegisters r 2 = c.code ∧ (r LoadReg).toNat < 32 ∧
      Agrees (raiseRegisters r) base
  | .returned _ _ _ => False

theorem Trap.Holds.ready (h : trap.Holds .trap x) : trap.Ready x := by
  cases trap with
  | call c r => exact h.2
  | returned c r value => cases h.1
  | _ => trivial

theorem Trap.Ready.calls (h : trap.Ready base) (fault : Option (BitVec 32)) :
    trap.Holds .trap (delayedLoad 0 0 (nested fault base)) := by
  cases trap with
  | call c r =>
      have hno := noLoad_delayedLoad (Function.update r BadVAddrReg 0)
      exact ⟨.inl rfl, h.1, h.2.1, (h.2.2.nested hno fault).delayedLoad hno⟩
  | returned c r value => exact h.elim
  | _ => trivial

theorem Trap.Ready.returns (h : trap.Ready base) (value : ℤ) :
    ((Stage.returns value).trap trap).Holds .run (trap.ends value base) := by
  cases trap with
  | call c r => exact ⟨rfl, h.1, h.2.1, base, h.2.2, rfl⟩
  | _ => trivial

/-- A load is not pending in a handler. -/
theorem Trap.Ready.ends (h : trap.Ready base) (hno : NoLoad base) (value : ℤ) :
    NoLoad (trap.ends value base) := by
  cases trap with
  | call c r => exact hno.returnRegisters _
  | _ => exact hno

/-- What the code that belongs to one of the system calls does to the registers. -/
theorem written_enters {a : Act} (hpc : pc = .run ∨ pc = .trap) (hne : pc' ≠ .run)
    (ha : (∃ child willJoin numPages, a = .exec child willJoin numPages) ∨
      (∃ funcPtr, a = .fork funcPtr) ∨ ∃ id, a = .join id) :
    Machine.written d d' t pc' a pc x = if pc = .run then raiseRegisters x else x := by
  have hback : ∀ writes, a ≠ .back writes := by
    rcases ha with ⟨_, _, _, rfl⟩ | ⟨_, rfl⟩ | ⟨_, rfl⟩ <;> simp
  have hother : ∀ o writes, a ≠ .other o writes := by
    rcases ha with ⟨_, _, _, rfl⟩ | ⟨_, rfl⟩ | ⟨_, rfl⟩ <;> simp
  rcases hpc with rfl | rfl
  · rcases ha with ⟨_, _, _, rfl⟩ | ⟨_, rfl⟩ | ⟨_, rfl⟩ <;> rfl
  · rw [Machine.written_kernel (by simp) (by simp) hback hother, if_neg hne, if_neg (by simp)]

/-- A stage of a handler. -/
theorem holds_stage {before : Registers → Registers} {stage : Stage} (hpc : pc = .run ∨ pc = .trap)
    (hnext : next t pc d view (stage.act before trap) = some (o, pc', d'))
    (hb : stage.belongs trap = true) (hno : NoLoad (before x)) (hready : trap.Ready (before x))
    (hrun : pc = .run → ∀ c r, trap = .call c r → before = raiseRegisters)
    (htrap : pc = .trap → before = id) :
    (stage.trap trap).Holds pc' (Machine.written d d' t pc' (stage.act before trap) pc x) ∧
      (Machine.written d d' t pc' (stage.act before trap) pc x LoadReg).toNat < 32 := by
  have hgoes := next_stage hpc hnext
  -- the code of `Exec2`, `Fork2` and `Join2` starts with the registers of the handler
  have henters : ∀ c r, trap = .call c r → pc'.call = some c →
      ((∃ child willJoin numPages, stage.act before trap = .exec child willJoin numPages) ∨
        (∃ funcPtr, stage.act before trap = .fork funcPtr) ∨
          ∃ id, stage.act before trap = .join id) →
        trap.Holds pc' (Machine.written d d' t pc' (stage.act before trap) pc x) ∧
          (Machine.written d d' t pc' (stage.act before trap) pc x LoadReg).toNat < 32 := by
    intro c r htc hc ha
    have hne : pc' ≠ .run := by
      rintro rfl
      cases hc
    have hbase : (if pc = .run then raiseRegisters x else x) = before x := by
      rcases hpc with rfl | rfl
      · rw [if_pos rfl, hrun rfl c r htc]
      · rw [if_neg (by simp), htrap rfl]
        rfl
    rw [written_enters hpc hne ha, hbase]
    refine ⟨?_, hno.load_lt⟩
    subst htc
    exact ⟨.inr hc, hready⟩
  cases stage with
  | calls fault o' =>
      have hw : Machine.written d d' t pc' (.other o' (nested fault ∘ before)) pc x =
          delayedLoad 0 0 (nested fault (before x)) := by
        rcases hpc with rfl | rfl <;> rfl
      rw [Stage.act, hw, show pc' = .trap from hgoes]
      exact ⟨hready.calls fault, (noLoad_delayedLoad _).load_lt⟩
  | returns value =>
      have hends := hready.ends hno value
      have hw : Machine.written d d' t pc' (.back (trap.ends value ∘ before)) pc x =
          trap.ends value (before x) := by
        rcases hpc with rfl | rfl
        · rfl
        · exact hends.delayedLoad
      rw [Stage.act, hw, show pc' = .run from hgoes]
      exact ⟨hready.returns value, hends.load_lt⟩
  | exits status =>
      refine ⟨trivial, ?_⟩
      rcases hpc with rfl | rfl
      · exact (noLoad_delayedLoad (Function.update x BadVAddrReg 0)).load_lt
      · rw [Stage.act, Machine.written_kernel (by simp) (by simp) (by simp) (by simp)]
        rw [htrap rfl] at hno
        split
        · rw [returnRegisters_load]
          exact hno.load_lt
        · exact hno.load_lt
  | execs child willJoin numPages =>
      cases trap with
      | call c r =>
          cases of_decide_eq_true hb
          exact henters _ r rfl hgoes (.inl ⟨_, _, _, rfl⟩)
      | _ => cases hb
  | forks funcPtr =>
      cases trap with
      | call c r =>
          cases of_decide_eq_true hb
          exact henters _ r rfl hgoes (.inr (.inl ⟨_, rfl⟩))
      | _ => cases hb
  | joins id =>
      cases trap with
      | call c r =>
          cases of_decide_eq_true hb
          exact henters _ r rfl hgoes (.inr (.inr ⟨_, rfl⟩))
      | _ => cases hb

/-- A step of the start-up code, or of the code that belongs to one of the system calls. -/
theorem holds_other {a : Act} (hpc : pc ≠ .run ∧ pc ≠ .trap)
    (hnext : next t pc d view a = some (o, pc', d')) (hholds : trap.Holds pc x)
    (hload : (∀ func, pc ≠ .start func) → (x LoadReg).toNat < 32) :
    (trap.close pc' (d'.result t)).Holds pc' (Machine.written d d' t pc' a pc x) ∧
      (Machine.written d d' t pc' a pc x LoadReg).toNat < 32 := by
  -- outside the code of a system call there is nothing to keep
  have hfree : pc.call = none → ∀ own pc', (trap.close pc' (d'.result t)).Holds pc' own := by
    intro hnone own pc'
    cases trap with
    | call c r =>
        rcases hholds.1 with h | h
        · exact absurd h hpc.2
        · rw [hnone] at h
          cases h
    | returned c r value => exact absurd hholds.1 hpc.1
    | _ => trivial
  by_cases hstart : ∃ func, pc = .start func
  · obtain ⟨func, rfl⟩ := hstart
    exact ⟨hfree rfl _ _, (noLoad_startRegisters _ _).load_lt⟩
  have hstart : ∀ func, pc ≠ .start func := fun func h => hstart ⟨func, h⟩
  have hlt : (x LoadReg).toNat < 32 := hload hstart
  have hkept : (if pc' = .run then returnRegisters (d'.result t) x else x) LoadReg = x LoadReg := by
    split
    · exact returnRegisters_load _ _
    · rfl
  by_cases hloading : pc = .loading
  · subst hloading
    refine ⟨hfree rfl _ _, ?_⟩
    cases a with
    | back writes => exact (noLoad_delayedLoad _).load_lt
    | other o writes => exact (noLoad_delayedLoad _).load_lt
    | _ =>
      rw [Machine.written_kernel hstart (by simp) (by simp) (by simp), hkept]
      exact hlt
  have hcode : pc ≠ .loading ∧ pc ≠ .run ∧ pc ≠ .trap := ⟨hloading, hpc⟩
  have hw : Machine.written d d' t pc' a pc x =
      if pc' = .run then returnRegisters (d'.result t) x else x := by
    refine Machine.written_kernel hstart hpc.1 ?_ ?_
    · rintro writes rfl
      rw [next_back_eq_none hcode] at hnext
      cases hnext
    · rintro o writes rfl
      rw [next_other_eq_none hcode] at hnext
      cases hnext
  rw [hw, hkept]
  refine ⟨?_, hlt⟩
  cases hcall : pc.call with
  | none => exact hfree hcall _ _
  | some c =>
      cases trap with
      | call c' r =>
          have hc : c' = c := by
            rcases hholds.1 with h | h
            · exact absurd h hpc.2
            · rw [hcall] at h
              exact (Option.some.inj h).symm
          subst hc
          rcases proceeds_of_next hcall hnext with hcall' | ⟨rfl, value, hresult⟩
          · have hne : pc' ≠ .run := by
              rintro rfl
              cases hcall'
            rw [Trap.close, if_neg hne, if_neg hne]
            exact ⟨.inr hcall', hholds.2⟩
          · have hvalue : c'.result ((d'.result t).getD 0) = d'.result t := by
              rw [hresult]
              cases c' <;> rfl
            rw [Trap.close, if_pos rfl, if_pos rfl]
            exact ⟨rfl, hholds.2.1, hholds.2.2.1, x, hholds.2.2.2, by rw [hvalue]⟩
      | returned c' r value => exact absurd hholds.1 hpc.1
      | _ => trivial

end Handlers

/-- Every thread has left what its system call makes it leave. -/
structure Tracks (s : Calls) : Prop where
  holds : ∀ t < s.state.kernel.numThreads,
    (s.trap t).Holds (s.state.kernel.pc t) (s.state.machine.own t)
  fresh : ∀ t, s.state.kernel.numThreads ≤ t → s.trap t = .user
  load_lt : ∀ t < s.state.kernel.numThreads, Begun s.state.kernel t →
    (s.state.machine.own t LoadReg).toNat < 32

variable {s s' : Calls} {mv : Move}

theorem Calls.step_eq_ok (h : s.step mv = .ok s') :
    ∃ lab trap, s.plan mv = some (lab, trap) ∧ s.state.step lab = .ok s'.state ∧
      s'.trap = Function.update s.trap s.state.kernel.currentThread
        (trap.close (s'.state.kernel.pc s.state.kernel.currentThread)
          (s'.state.kernel.data.result s.state.kernel.currentThread)) := by
  unfold Calls.step at h
  split at h
  · cases h
  · rename_i lab trap hplan
    split at h
    · cases h
    · rename_i state hstate
      cases h
      exact ⟨lab, trap, hplan, hstate, rfl⟩

theorem Tracks.init (numPages : ℕ) (joinValue : ℕ → ℤ) (initialValue : ℕ → ℤ) (m : Machine) :
    Tracks (Calls.initial numPages joinValue initialValue m) := by
  refine ⟨fun _ _ => trivial, fun _ _ => rfl, ?_⟩
  intro t _ hb
  exact absurd rfl (hb (some 0))

/-- The own code of the current thread. -/
theorem Tracks.current (h : Tracks s) (hf : Faithful s.state)
    (hcur : s.state.kernel.currentThread < s.state.kernel.numThreads)
    (hst : s.state.kernel.stack s.state.kernel.currentThread = []) {a : Act} {trap : Trap}
    (hplan : s.plan mv = some (.act a, trap)) {view : View} {o : Call Pc} {pc' : Pc} {d' : Data}
    (hnext : next s.state.kernel.currentThread s.pc s.state.kernel.data view a =
      some (o, pc', d')) :
    (trap.close pc' (d'.result s.state.kernel.currentThread)).Holds pc'
        (Machine.written s.state.kernel.data d' s.state.kernel.currentThread pc' a s.pc
          (if s.pc = .run then s.state.machine.registers
            else s.state.machine.own s.state.kernel.currentThread)) ∧
      (Machine.written s.state.kernel.data d' s.state.kernel.currentThread pc' a s.pc
          (if s.pc = .run then s.state.machine.registers
            else s.state.machine.own s.state.kernel.currentThread) LoadReg).toNat < 32 := by
  have hout : s.outside = true := by
    unfold Calls.outside
    rw [hst]
    rfl
  have hholds : (s.trap s.state.kernel.currentThread).Holds s.pc _ := h.holds _ hcur
  have hnot : ¬ Switched s.state.kernel s.state.kernel.currentThread := by
    rintro ⟨rest, hrest⟩
    rw [hst] at hrest
    cases hrest
  have hclose : ∀ {trap : Trap} {own : Registers}, trap.Holds pc' own ∧ (own LoadReg).toNat < 32 →
      (trap.close pc' (d'.result s.state.kernel.currentThread)).Holds pc' own ∧
        (own LoadReg).toNat < 32 := fun h => ⟨h.1.close _, h.2⟩
  cases mv with
  | other lab =>
      simp only [Calls.plan, hout] at hplan
      split at hplan
      · rename_i hpc
        cases hplan
        have hpc : s.pc ≠ .run ∧ s.pc ≠ .trap := by simpa using hpc
        rw [if_neg hpc.1]
        exact holds_other hpc hnext hholds fun hb => h.load_lt _ hcur hb
      · cases hplan
  | instruction i =>
      simp only [Calls.plan] at hplan
      split at hplan
      · rename_i hpc
        cases hplan
        rw [if_pos hpc.2]
        refine ⟨trivial, ?_⟩
        have hw : Machine.written s.state.kernel.data d' s.state.kernel.currentThread pc'
            (.back i.writes) s.pc s.state.machine.registers =
              i.writes s.state.machine.registers := by
          rw [hpc.2]
          rfl
        rw [hw]
        exact i.load_lt _
      · cases hplan
  | fault badVAddr stage =>
      simp only [Calls.plan] at hplan
      split at hplan
      · rename_i hpc
        cases hplan
        rw [if_pos hpc.2.1]
        refine hclose (holds_stage (.inl hpc.2.1) hnext hpc.2.2 (noLoad_delayedLoad _)
          trivial ?_ ?_)
        · intro _ c r htrap
          cases htrap
        · intro htrap
          rw [hpc.2.1] at htrap
          cases htrap
      · cases hplan
  | call c stage =>
      simp only [Calls.plan] at hplan
      split at hplan
      · rename_i hpc
        obtain ⟨-, hpc, hcode, hb⟩ := hpc
        cases hplan
        have hbegun : Begun s.state.kernel s.state.kernel.currentThread := by
          intro func
          rw [show s.state.kernel.pc _ = .run from hpc]
          exact Pc.noConfusion
        have hlt : (s.state.machine.registers LoadReg).toNat < 32 := by
          rcases (hf.current hbegun hnot).1 with heq | heq
          · rw [heq]
            exact h.load_lt _ hcur hbegun
          · rw [heq]
            exact (noLoad_delayedLoad _).load_lt
        rw [if_pos hpc]
        refine hclose (holds_stage (.inl hpc) hnext hb (noLoad_delayedLoad _)
          ⟨hcode, hlt, .refl _⟩ (fun _ _ _ _ => rfl) ?_)
        intro htrap
        rw [hpc] at htrap
        cases htrap
      · cases hplan
  | goOn stage =>
      simp only [Calls.plan] at hplan
      split at hplan
      · rename_i hpc
        obtain ⟨-, hpc, hb⟩ := hpc
        cases hplan
        have hbegun : Begun s.state.kernel s.state.kernel.currentThread := by
          intro func
          rw [show s.state.kernel.pc _ = .trap from hpc]
          exact Pc.noConfusion
        have hno : NoLoad (s.state.machine.own s.state.kernel.currentThread) := by
          rw [← hf.settled _ hcur hbegun (by rw [show s.state.kernel.pc _ = .trap from hpc]; simp)]
          exact noLoad_delayedLoad _
        rw [hpc] at hholds
        rw [if_neg (by rw [hpc]; simp)]
        refine hclose (holds_stage (.inr hpc) hnext hb hno hholds.ready ?_ fun _ => rfl)
        intro hrun
        rw [hpc] at hrun
        cases hrun
      · cases hplan

theorem Calls.plan_inside (hout : s.outside = false) {lab : Label Act} {trap : Trap}
    (hplan : s.plan mv = some (lab, trap)) : trap = s.trap s.state.kernel.currentThread := by
  cases mv with
  | other lab' =>
      simp only [Calls.plan, hout] at hplan
      cases hplan
      rfl
  | _ => simp [Calls.plan, hout] at hplan

theorem Tracks.step (h : Tracks s) (hf : Faithful s.state) {d₀ : Data} {initialValue : ℕ → ℤ}
    (hr : Runs client (.start (some 0)) d₀ initialValue s.state.kernel) (hs : s.step mv = .ok s') :
    Tracks s' := by
  obtain ⟨lab, trap, hplan, hstate, htrap⟩ := Calls.step_eq_ok hs
  have hcur := hr.placed.current_lt
  -- the current thread, in its own code or in a kernel routine
  have hself : (s'.trap s.state.kernel.currentThread).Holds
        (s'.state.kernel.pc s.state.kernel.currentThread)
        (s'.state.machine.own s.state.kernel.currentThread) ∧
      (Begun s'.state.kernel s.state.kernel.currentThread →
        (s'.state.machine.own s.state.kernel.currentThread LoadReg).toNat < 32) := by
    rw [htrap, Function.update_self]
    rcases State.own_turn hr hstate with
      ⟨a, o, pc', rfl, hst, hnext, hpc', hown⟩ | ⟨hne, hpc', hown⟩
    · obtain ⟨hholds, hlt⟩ := h.current hf hcur hst hplan hnext
      rw [hpc', hown]
      exact ⟨hholds, fun _ => hlt⟩
    · have hout : s.outside = false := by
        simpa [Calls.outside] using hne
      rw [Calls.plan_inside hout hplan, hown, hpc']
      refine ⟨(h.holds _ hcur).close _, ?_⟩
      intro hb
      refine h.load_lt _ hcur ?_
      intro func
      rw [← hpc']
      exact hb func
  refine ⟨?_, ?_, ?_⟩
  · intro t ht
    by_cases htc : t = s.state.kernel.currentThread
    · subst htc
      exact hself.1
    · rw [htrap, Function.update_of_ne htc]
      rcases State.pc_of_ne hr hstate htc ht with ⟨hlt, hpc⟩ | ⟨hle, -⟩
      · rw [hpc, State.own_of_ne hstate htc]
        exact h.holds t hlt
      · rw [h.fresh t hle]
        trivial
  · intro t ht
    have hle := Nat.le_trans (State.numThreads_le hr hstate) ht
    rw [htrap, Function.update_of_ne (Nat.ne_of_gt (Nat.lt_of_lt_of_le hcur hle))]
    exact h.fresh t hle
  · intro t ht hb
    by_cases htc : t = s.state.kernel.currentThread
    · subst htc
      exact hself.2 hb
    · rcases State.pc_of_ne hr hstate htc ht with ⟨hlt, hpc⟩ | ⟨-, hnot⟩
      · rw [State.own_of_ne hstate htc]
        refine h.load_lt t hlt ?_
        intro func
        rw [← hpc]
        exact hb func
      · exact absurd hb hnot

theorem tracks_of_runs {numPages : ℕ} {joinValue : ℕ → ℤ} {initialValue : ℕ → ℤ} {m : Machine}
    (h : Reachable Calls.step (Calls.initial numPages joinValue initialValue m) s) :
    Reachable State.step (State.initial numPages joinValue initialValue m) s.state ∧ Tracks s := by
  refine Reachable.invariant (I := fun s =>
    Reachable State.step (State.initial numPages joinValue initialValue m) s.state ∧
      Tracks s) ?_ ?_ h
  · exact ⟨.refl _ _, .init numPages joinValue initialValue m⟩
  · intro s mv s' _ hi hs
    obtain ⟨lab, trap, -, hstate, -⟩ := Calls.step_eq_ok hs
    obtain ⟨hkernel, hf⟩ := faithful_of_runs hi.1
    exact ⟨hi.1.tail hstate, hi.2.step hf (spaced_of_runs hkernel).1 hs⟩

/-! ## The registers after the call -/

/-- The registers `r'` are those that a program with the registers `r` expects after the call `c`
that has computed `value`. -/
structure Returned (c : SysCall) (r : Registers) (value : ℤ) (r' : Registers) : Prop where
  pc : r' PCReg = r NextPCReg
  nextPC : r' NextPCReg = r NextPCReg + 4
  result : c.declaresResult = true → r' 2 = BitVec.ofInt 32 value
  /-- The other general registers, `Hi` and `Lo`, with a pending load completed. -/
  others : ∀ i : Fin 40, i < 34 → (i = 2 → c.declaresResult = false) → r' i = delayedLoad 0 0 r i

/-- `DelayedLoad` writes the register of the load, and its own two. -/
theorem delayedLoad_apply (r : Registers) (i : Fin 40) :
    delayedLoad 0 0 r i =
      if i = 0 ∨ i = LoadReg ∨ i = LoadValueReg then 0
      else if i.val = (r LoadReg).toNat then r LoadValueReg else r i := by
  unfold delayedLoad
  by_cases hzero : i = 0
  · simp [hzero]
  by_cases hvalue : i = LoadValueReg
  · subst hvalue
    simp [LoadValueReg]
  by_cases hreg : i = LoadReg
  · subst hreg
    simp [LoadReg, LoadValueReg]
  simp only [Function.update_of_ne hzero, Function.update_of_ne hvalue, Function.update_of_ne hreg,
    hzero, hvalue, hreg, or_self, if_false]
  split
  · rename_i hlt
    by_cases hload : i.val = (r LoadReg).toNat
    · have heq : i = ⟨(r LoadReg).toNat, hlt⟩ := Fin.ext hload
      rw [if_pos hload, heq, Function.update_self]
    · have hne : i ≠ ⟨(r LoadReg).toNat, hlt⟩ := fun heq => hload (congrArg Fin.val heq)
      rw [if_neg hload, Function.update_of_ne hne]
  · rename_i hge
    rw [if_neg (by omega)]

/-- The bad address makes no difference to the other registers. -/
theorem raiseRegisters_apply {i : Fin 40} (hi : i ≠ BadVAddrReg) :
    raiseRegisters r i = delayedLoad 0 0 r i := by
  have hload : Function.update r BadVAddrReg 0 LoadReg = r LoadReg :=
    Function.update_of_ne (by decide) _ _
  have hvalue : Function.update r BadVAddrReg 0 LoadValueReg = r LoadValueReg :=
    Function.update_of_ne (by decide) _ _
  rw [raiseRegisters, delayedLoad_apply, delayedLoad_apply, hload, hvalue, Function.update_of_ne hi]

theorem raiseRegisters_nextPC (h : (r LoadReg).toNat < 32) :
    raiseRegisters r NextPCReg = r NextPCReg := by
  have hval : NextPCReg.val = 35 := rfl
  rw [raiseRegisters_apply (by decide), delayedLoad_apply, if_neg (by decide), if_neg (by omega)]

theorem returnRegisters_pc (result : Option ℤ) (r : Registers) :
    returnRegisters result r PCReg = r NextPCReg ∧
      returnRegisters result r NextPCReg = r NextPCReg + 4 := by
  cases result <;> simp [returnRegisters, PCReg, NextPCReg]

theorem returnRegisters_of_lt (result : Option ℤ) {i : Fin 40} (hi : i < 34) :
    returnRegisters result r i =
      if i = 2 then (result.map (BitVec.ofInt 32)).getD (r 2) else r i := by
  have hpc : i ≠ PCReg ∧ i ≠ NextPCReg := by
    constructor <;> rintro rfl <;> exact absurd hi (by decide)
  unfold returnRegisters
  rw [Function.update_of_ne hpc.2, Function.update_of_ne hpc.1]
  cases result with
  | none =>
      by_cases htwo : i = 2
      · rw [if_pos htwo, htwo]
        rfl
      · rw [if_neg htwo]
  | some value =>
      by_cases htwo : i = 2
      · rw [if_pos htwo, htwo]
        exact Function.update_self _ _ _
      · rw [if_neg htwo]
        exact Function.update_of_ne htwo _ _

/-- What `ExceptionHandler` leaves is what the program expects, except after Read: register 2 still
holds the number of the call. -/
theorem returned_iff (hcode : raiseRegisters r 2 = c.code) (hload : (r LoadReg).toNat < 32)
    (hbase : Agrees (raiseRegisters r) base) :
    Returned c r value (returnRegisters (c.result value) base) ↔
      (c = .read → BitVec.ofInt 32 value = c.code) := by
  have htwo : base 2 = c.code := by rw [hbase _ (by decide), hcode]
  have hnext : base NextPCReg = r NextPCReg := by
    rw [hbase _ (by decide), raiseRegisters_nextPC hload]
  have hpc := returnRegisters_pc (c.result value) base
  rw [hnext] at hpc
  have hresult := @returnRegisters_of_lt base (c.result value) 2 (by decide)
  rw [if_pos rfl, htwo] at hresult
  constructor
  · rintro hret rfl
    rw [← hret.result rfl, hresult]
    rfl
  · intro hread
    refine ⟨hpc.1, hpc.2, ?_, ?_⟩
    · intro hdecl
      rw [hresult]
      cases c with
      | read => exact (hread rfl).symm
      | exec => rfl
      | join => rfl
      | _ => cases hdecl
    · intro i hi hnot
      have hbad : i ≠ BadVAddrReg := by
        rintro rfl
        exact absurd hi (by decide)
      rw [← raiseRegisters_apply hbad]
      by_cases htwo' : i = 2
      · subst htwo'
        have hdecl := hnot rfl
        rw [hresult, hcode]
        cases c with
        | exec => cases hdecl
        | join => cases hdecl
        | _ => rfl
      · rw [returnRegisters_of_lt _ hi, if_neg htwo', hbase i hbad]

/-- In every run of user threads, under any scheduling: a thread that has come back from a system
call and is to run its next instruction has the registers that its program expects, but after a
Read register 2 holds the number of the call and not the result. -/
theorem sysCall_returned_iff (numPages : ℕ) (joinValue : ℕ → ℤ) (initialValue : ℕ → ℤ) (m : Machine)
    (s : Calls) (h : Reachable Calls.step (Calls.initial numPages joinValue initialValue m) s)
    (hout : s.outside = true) (hpc : s.pc = .run) {c : SysCall} {r : Registers} {value : ℤ}
    (htrap : s.trap s.state.kernel.currentThread = .returned c r value) :
    Returned c r value s.state.machine.registers ↔
      (c = .read → BitVec.ofInt 32 value = SysCall.read.code) := by
  obtain ⟨hstate, htracks⟩ := tracks_of_runs h
  have hst : s.state.kernel.stack s.state.kernel.currentThread = [] := by
    simpa [Calls.outside] using hout
  have hcur := (spaced_of_runs (faithful_of_runs hstate).1).1.placed.current_lt
  have hholds := htracks.holds _ hcur
  rw [htrap] at hholds
  obtain ⟨-, hcode, hload, base, hbase, hown⟩ := hholds
  have hno : NoLoad (s.state.machine.own s.state.kernel.currentThread) := by
    rw [hown]
    exact (hbase.noLoad (noLoad_delayedLoad _)).returnRegisters _
  have hregs := (own_of_runs hstate hst hpc).1
  rw [hregs.eq_of_settled hno.delayedLoad, hown, returned_iff hcode hload hbase]
  constructor
  · rintro hread rfl
    exact hread rfl
  · rintro hread rfl
    exact hread rfl

/-- An instruction that sets register 2. -/
def setNumber (code : BitVec 32) : Instruction where
  writes := fun r => Function.update (delayedLoad 0 0 r) 2 code
  load_lt := fun r => ((noLoad_delayedLoad r).update code (by decide)).load_lt

/-- The current thread goes on with its kernel routine, by `n` parts of it. -/
def goes (n : ℕ) : List Move := List.replicate n (.other .go)

/-- The start-up code or the routine of a system call goes on to its next kernel routine. -/
def resumes (n : ℕ) : List Move := .other (.act (.goOn 0)) :: goes n

/-- The first process calls Join with an identifier that no process has. -/
def joinNobody : List Move :=
  resumes 2 ++ [.instruction (setNumber SysCall.join.code)] ++ goes 2 ++
    [.call .join (.joins 3)] ++ goes 4 ++ resumes 3 ++ resumes 2

/-- The first process calls Read, and `Read2` computes 5. -/
def readFive : List Move :=
  resumes 2 ++ [.instruction (setNumber SysCall.read.code)] ++ goes 2 ++
    [.call .read (.returns 5)] ++ goes 2

/-- The first process, with 10 pages and all registers 0. -/
def firstProcess : Calls :=
  .initial 10 (fun _ => 0) (fun _ => 0) ⟨fun _ => 0, 0, 0, fun _ _ => 0, fun _ _ => 0⟩

/-- The registers and the computed value, where the current thread is back from a call of `c` and
is to run its next instruction. -/
def Calls.back (s : Calls) (c : SysCall) : Option (Registers × ℤ) :=
  if s.outside = true ∧ s.pc = .run then
    match s.trap s.state.kernel.currentThread with
    | .returned d r value => if d = c then some (r, value) else none
    | _ => none
  else
    none

theorem Calls.back_eq_some {s : Calls} (h : s.back c = some (r, value)) :
    s.outside = true ∧ s.pc = .run ∧
      s.trap s.state.kernel.currentThread = .returned c r value := by
  unfold Calls.back at h
  split at h
  · rename_i hrun
    split at h
    · rename_i d r' value' htrap
      split at h
      · rename_i hd
        simp only [Option.some.injEq, Prod.mk.injEq] at h
        exact ⟨hrun.1, hrun.2, by rw [htrap, hd, h.1, h.2]⟩
      · cases h
    · cases h
  · cases h

theorem sysCall_returned_join :
    ∃ s r value, Reachable Calls.step firstProcess s ∧ s.back .join = some (r, value) ∧
      value = -65535 ∧ Returned .join r value s.state.machine.registers := by
  have hpass : passes Calls.step firstProcess joinNobody
      (fun s => (s.back .join).map Prod.snd = some (-65535)) = true := by
    decide +kernel
  obtain ⟨s, hs, hend⟩ := exists_of_passes _ hpass
  obtain ⟨⟨r, value⟩, hback, hvalue⟩ := Option.map_eq_some_iff.1 (of_decide_eq_true hend)
  obtain ⟨hout, hpc, htrap⟩ := Calls.back_eq_some hback
  refine ⟨s, r, value, hs, hback, hvalue, ?_⟩
  rw [sysCall_returned_iff 10 _ _ _ s hs hout hpc htrap]
  rintro ⟨⟩

/-- The program that has called Read finds the number of the call in register 2. -/
theorem readFive_result_lost :
    ∃ s r value, Reachable Calls.step firstProcess s ∧ s.back .read = some (r, value) ∧
      value = 5 ∧ s.state.machine.registers 2 = 6 ∧
        ¬Returned .read r value s.state.machine.registers := by
  have hpass : passes Calls.step firstProcess readFive
      (fun s => (s.back .read).map Prod.snd = some 5 ∧ s.state.machine.registers 2 = 6) = true := by
    decide +kernel
  obtain ⟨s, hs, hend⟩ := exists_of_passes _ hpass
  obtain ⟨hread, htwo⟩ := of_decide_eq_true hend
  obtain ⟨⟨r, value⟩, hback, hvalue⟩ := Option.map_eq_some_iff.1 hread
  refine ⟨s, r, value, hs, hback, hvalue, htwo, ?_⟩
  rintro ⟨-, -, hresult, -⟩
  have hfive := hresult rfl
  rw [htwo, show value = 5 from hvalue] at hfive
  exact absurd hfive (by decide)

end UserThreads

end Nachos
