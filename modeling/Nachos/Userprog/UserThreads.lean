import Nachos.Threads.Handshake
import Nachos.Machine.Translate
import Nachos.Userprog.Table

/-!
# User threads

`Exec2`, `Fork2`, `SysCallExit` and `Join2` of `exception.cc` and `allocateThreadSpace` of
`addrspace.cc`, as a program over the kernel: a process has an address space and any number of
threads. Every call of `TablePtr` and of the memory manager is cut at the `Acquire` and the
`Release` of the lock in it, and the rest of an exception handler is any sequence of calls of
other kernel routines.

A `Thread` is made before it is forked, so it is named by the number of its `new`, and
`tid` is the number that the kernel gives it at its `Fork`. Address spaces and page tables are
numbered in the same way. What a deleted `Thread` holds and whether there is a free
frame is said by the label. An Exec that finds `TablePtr` full deletes its executable twice:
the second `Close` fails, and the machine stops.
-/

namespace Nachos

open Lib

namespace UserThreads

def MAXPROCESS : ℕ := 14

def UserStackSize : ℕ := 1024

/-- `divRoundUp(UserStackSize, PageSize)`. -/
def newPages : ℕ := UserStackSize / pageSize

/-- The 40 registers of the machine. -/
abbrev Registers := Fin 40 → BitVec 32

/-- Where a thread is. -/
inductive Pc where
  /-- `ThreadRoot` is to call `ProcessStartExec`, or `ForkedThread` with its argument. -/
  | start (funcPtr : Option (BitVec 32))
  /-- `ProcessStartExec` in `LoadArguments`. -/
  | loading
  /-- `Machine::Run` is to call `OneInstruction`. -/
  | run
  /-- In `ExceptionHandler`, outside the system calls below. -/
  | trap
  /-- `Exec2` after its `Fork`. -/
  | execForked (child : ℕ)
  /-- `TablePtr->Alloc` of `Exec2` after its `Acquire`. -/
  | execAlloc (child : ℕ)
  /-- `Exec2` after its call of `Alloc`. -/
  | execReturn (processID : ℤ)
  /-- `AllocPage` of `allocateThreadSpace` after its `Acquire`. -/
  | forkPage (funcPtr : BitVec 32) (newTable i : ℕ)
  /-- `allocateThreadSpace` after its call of `AllocPage`. -/
  | forkFound (funcPtr : BitVec 32) (newTable i : ℕ) (found : Bool)
  /-- `FreePage` of `allocateThreadSpace` after its `Acquire`. -/
  | forkFree (i j : ℕ)
  /-- `allocateThreadSpace` after its call of `FreePage`. -/
  | forkFreed (i j : ℕ)
  /-- `TablePtr->Alloc` of `Fork2` after its `Acquire`. -/
  | forkAlloc (funcPtr : BitVec 32) (forkedThread : ℕ)
  /-- `Fork2` after its call of `Alloc`. -/
  | forkFork (funcPtr : BitVec 32) (forkedThread : ℕ)
  /-- `Fork2` after its `Fork`. -/
  | forkReturn
  /-- The `TablePtr->Get(id - 1)` of `Join2` after its `Acquire`. -/
  | joinGet (id : ℤ)
  /-- `Join2` after its call of `Get`. -/
  | joinTest (joinThread : Option ℕ)
  /-- `Join2` after its call of `Join`. -/
  | joinRead (joinThread : ℕ)
  /-- The `TablePtr->Get(i)` of `SysCallExit` after its `Acquire`. -/
  | exitGet (i : ℕ)
  /-- `SysCallExit` after its call of `Get`. -/
  | exitTest (i : ℕ) (temp : Option ℕ)
  /-- The `TablePtr->Release(i)` of `SysCallExit` after its `Acquire`. -/
  | exitRelease (i : ℕ)
  /-- `SysCallExit` after its call of `Release`. -/
  | exitNext (i : ℕ)
  /-- `SysCallExit` has called `Finish`. -/
  | exited
  deriving DecidableEq

/-- The members of an `AddrSpace`. -/
structure Space where
  pageTable : ℕ
  numPages : ℕ

structure Data where
  tablePtr : Table ℕ
  /-- The `Thread` objects made so far are those below. -/
  numObjects : ℕ
  /-- The thread of the kernel, once the object has been forked. -/
  tid : ℕ → Option Tid
  /-- The object of a thread of the kernel. -/
  self : Tid → ℕ
  /-- The member `space` of every `Thread`. -/
  space : ℕ → ℕ
  /-- The member `joinValue` of every `Thread`. -/
  joinValue : ℕ → ℤ
  spaces : ℕ → Space
  numSpaces : ℕ
  numTables : ℕ
  /-- The number of entries that a page table has been made with. -/
  tableSize : ℕ → ℕ
  /-- What the last system call of the thread has put into register 2. -/
  result : Tid → Option ℤ
  /-- The history of `InitRegisters`: the value of `StackReg` for the thread. -/
  stackReg : Tid → Option ℤ

/-- The lock of `TablePtr`. -/
def tableLock : Obj := .user 0

/-- The lock of the memory manager. -/
def memoryLock : Obj := .user 1

/-- What a thread does next, and what a handler does. -/
inductive Act where
  /-- An exception handler or `LoadArguments`, up to a call of another kernel routine, with what it
  does to the registers. -/
  | other (o : Call Pc) (writes : Registers → Registers)
  /-- `OneInstruction` or `LoadArguments` returns. -/
  | back (writes : Registers → Registers)
  /-- Exec, with the new thread and the size of its address space. -/
  | exec (child : Tid) (willJoin : ℤ) (numPages : ℕ)
  | fork (funcPtr : BitVec 32)
  | join (id : ℤ)
  | exit (status : ℤ)
  /-- The system call goes on; `freed` is what a deleted `Thread` holds. -/
  | goOn (freed : ℤ)
  /-- `AllocPage` finds a page, or does not. -/
  | page (found : Bool)
  /-- The `Fork` of `Fork2` makes the thread. -/
  | thread (child : Tid)
  | handle (sems : List ℕ)

/-- A call that is not part of these system calls. -/
def foreign : Call Pc → Bool
  | .acquire l => l ≠ tableLock
  | .release l => l ≠ tableLock
  | .wait _ l => l ≠ tableLock
  | .fork _ _ _ => false
  | .finish => false
  | .join _ => false
  | _ => true

namespace Data

/-- The address space of a thread of the kernel. -/
def mySpace (d : Data) (t : Tid) : ℕ := d.space (d.self t)

/-- Whether `Scheduler::Run` has deleted the object. -/
def deleted (d : Data) (view : View) (object : ℕ) : Bool :=
  match d.tid object with
  | some u => view.deleted u
  | none => false

def setResult (d : Data) (t : Tid) (value : Option ℤ) : Data :=
  { d with result := Function.update d.result t value }

/-- `new Thread` with its member `space`. -/
def newThread (d : Data) (space : ℕ) : Data :=
  { d with
    numObjects := d.numObjects + 1
    tid := Function.update d.tid d.numObjects none
    space := Function.update d.space d.numObjects space }

/-- The object has become the thread `child` of the kernel. -/
def forked (d : Data) (object : ℕ) (child : Tid) : Data :=
  { d with
    tid := Function.update d.tid object (some child)
    self := Function.update d.self child object
    stackReg := Function.update d.stackReg child none }

/-- `new TranslationEntry[size]`. -/
@[simps -fullyApplied] def newTable (d : Data) (size : ℕ) : Data :=
  { d with
    tableSize := Function.update d.tableSize d.numTables size
    numTables := d.numTables + 1 }

/-- `new AddrSpace`, and its `Initialize`. -/
def newSpace (d : Data) (numPages : ℕ) : Data :=
  { d.newTable numPages with
    spaces := Function.update d.spaces d.numSpaces ⟨d.numTables, numPages⟩
    numSpaces := d.numSpaces + 1 }

/-- The end of `allocateThreadSpace`. -/
def enlarge (d : Data) (space newTable : ℕ) : Data :=
  { d with
    spaces := Function.update d.spaces space ⟨newTable, (d.spaces space).numPages + newPages⟩ }

/-- The stack register that `InitRegisters` sets. -/
def initialStackReg (d : Data) (t : Tid) : ℤ :=
  (d.spaces (d.mySpace t)).numPages * pageSize - 16

end Data

/-- A system call returns to the user program. -/
def sysReturn (t : Tid) (d : Data) (value : Option ℤ) : Call Pc × Pc × Data :=
  (.oneTick, .run, d.setResult t value)

/-- The loop of `SysCallExit` from the slot `i` on. -/
def exitLoop (d : Data) (i : ℕ) : Call Pc × Pc × Data :=
  if i < TABLESIZE then
    (.acquire tableLock, .exitGet i, d)
  else
    (.finish, .exited, d)

/-- The loop of `allocateThreadSpace` from the page `i` on, and the rest of `Fork2` up to its
call of `Alloc`. The bound of the loop is read again in every turn, and `newTable` keeps its size:
`newTable[i]` may be a wild address, and what follows the table on the heap is then lost. -/
def forkLoop (t : Tid) (d : Data) (funcPtr : BitVec 32) (newTable i : ℕ) :
    Option (Call Pc × Pc × Data) :=
  if i < (d.spaces (d.mySpace t)).numPages + newPages then
    if i < d.tableSize newTable then
      some (.acquire memoryLock, .forkPage funcPtr newTable i, d)
    else
      none
  else
    some (.acquire tableLock, .forkAlloc funcPtr d.numObjects,
      (d.enlarge (d.mySpace t) newTable).newThread (d.mySpace t))

/-- The loop of `allocateThreadSpace` that frees the pages from `j` on when there is no page
`i`, and the return of `Fork2`. -/
def freeLoop (t : Tid) (d : Data) (i j : ℕ) : Call Pc × Pc × Data :=
  if j < i then
    (.acquire memoryLock, .forkFree i j, d)
  else
    sysReturn t d none

/-- A thread in the user program, or in an exception handler. -/
def user (t : Tid) (d : Data) : Act → Option (Call Pc × Pc × Data)
  | .exec child willJoin numPages =>
      some (.fork child (willJoin % 2) (.start none), .execForked d.numObjects,
        ((d.newSpace numPages).newThread d.numSpaces).forked d.numObjects child)
  | .fork funcPtr =>
      forkLoop t (d.newTable ((d.spaces (d.mySpace t)).numPages + newPages)) funcPtr d.numTables
        (d.spaces (d.mySpace t)).numPages
  | .join id => some (.acquire tableLock, .joinGet id, d)
  | .exit status =>
      some (exitLoop { d with joinValue := Function.update d.joinValue (d.self t) status } 0)
  | .other o _ => if foreign o then some (o, .trap, d) else none
  | .back _ => some (.oneTick, .run, d)
  | _ => none

/-- `InitRegisters` and `RestoreState`. `ProcessStartExec` goes on to `LoadArguments`; the tick
before the user program only adds runs. -/
def begins (t : Tid) (d : Data) (funcPtr : Option (BitVec 32)) : Call Pc × Pc × Data :=
  (.oneTick, if funcPtr.isNone then .loading else .run,
    { d with stackReg := Function.update d.stackReg t (some (d.initialStackReg t)) })

/-- `Join2` after its call of `Get`; `Join` asserts that the thread has been forked. -/
def joinTest (t : Tid) (d : Data) (view : View) (freed : ℤ) :
    Option ℕ → Option (Call Pc × Pc × Data)
  | none => some (sysReturn t d (some (-65535)))
  | some joinThread =>
      match d.tid joinThread with
      | none => none
      | some u =>
          let canJoin := if view.deleted u then freed else view.join u
          if canJoin = 0 then
            some (sysReturn t d (some (-65535)))
          else
            some (.join u, .joinRead joinThread, d)

/-- `SysCallExit` after its call of `Get`. -/
def exitTest (t : Tid) (d : Data) (view : View) (freed : ℤ) (i : ℕ) :
    Option ℕ → Call Pc × Pc × Data
  | none => exitLoop d (i + 1)
  | some temp =>
      if (if d.deleted view temp then freed ≠ 0 else d.space temp = d.mySpace t) then
        (.acquire tableLock, .exitRelease i, d)
      else
        exitLoop d (i + 1)

/-- A thread in a system call. -/
def goOn (t : Tid) (d : Data) (view : View) (freed : ℤ) : Pc → Option (Call Pc × Pc × Data)
  | .start funcPtr => some (begins t d funcPtr)
  | .loading => none
  | .run => none
  | .trap => none
  | .execForked child => some (.acquire tableLock, .execAlloc child, d)
  | .execAlloc child =>
      some (.release tableLock, .execReturn (d.tablePtr.alloc child).1,
        { d with tablePtr := (d.tablePtr.alloc child).2 })
  | .execReturn processID =>
      if processID = -1 then
        none
      else
        some (sysReturn t d (some (processID + 1)))
  | .forkPage _ _ _ => none
  | .forkFound funcPtr newTable i found =>
      if found then
        forkLoop t d funcPtr newTable (i + 1)
      else
        some (freeLoop t d i (d.spaces (d.mySpace t)).numPages)
  | .forkFree i j => some (.release memoryLock, .forkFreed i j, d)
  | .forkFreed i j => some (freeLoop t d i (j + 1))
  | .forkAlloc funcPtr forkedThread =>
      some (.release tableLock, .forkFork funcPtr forkedThread,
        { d with tablePtr := (d.tablePtr.alloc forkedThread).2 })
  | .forkFork _ _ => none
  | .forkReturn => some (sysReturn t d none)
  | .joinGet id => some (.release tableLock, .joinTest (d.tablePtr.get (id - 1)), d)
  | .joinTest joinThread => joinTest t d view freed joinThread
  | .joinRead joinThread =>
      some (sysReturn t d
        (some (if d.deleted view joinThread then freed else d.joinValue joinThread)))
  | .exitGet i => some (.release tableLock, .exitTest i (d.tablePtr.get i), d)
  | .exitTest i temp => some (exitTest t d view freed i temp)
  | .exitRelease i =>
      some (.release tableLock, .exitNext i, { d with tablePtr := d.tablePtr.release i })
  | .exitNext i => some (exitLoop d (i + 1))
  | .exited => none

/-- A thread in `LoadArguments`. -/
def loading (t : Tid) (d : Data) : Act → Option (Call Pc × Pc × Data)
  | .other o _ => if foreign o then some (o, .loading, d) else none
  | .back _ => some (.oneTick, .run, d)
  | .exit status => user t d (.exit status)
  | _ => none

def next (t : Tid) (pc : Pc) (d : Data) (view : View) (a : Act) : Option (Call Pc × Pc × Data) :=
  match a with
  | .goOn freed => goOn t d view freed pc
  | .page found =>
      match pc with
      | .forkPage funcPtr newTable i =>
          some (.release memoryLock, .forkFound funcPtr newTable i found, d)
      | _ => none
  | .thread child =>
      match pc with
      | .forkFork funcPtr forkedThread =>
          some (.fork child 1 (.start (some funcPtr)), .forkReturn, d.forked forkedThread child)
      | _ => none
  | a =>
      match pc with
      | .loading => loading t d a
      | .run => user t d a
      | .trap => user t d a
      | _ => none

/-- The program of the user threads. -/
def client : Client Pc Data Act where
  next := next
  handler a d :=
    match a with
    | .handle sems => some (sems, d)
    | _ => none

/-- The first process before the `InitRegisters` of `StartProcess`. It gets no arguments, so it
starts as a thread that is forked at 0; that its entry in `TablePtr` is written before makes no
difference. -/
def start (numPages : ℕ) (joinValue : ℕ → ℤ) : Data where
  tablePtr := ((Table.new MAXPROCESS).alloc 0).2
  numObjects := 1
  tid := Function.update (fun _ => none) 0 (some 0)
  self := fun _ => 0
  space := fun _ => 0
  joinValue := joinValue
  spaces := fun _ => ⟨0, numPages⟩
  numSpaces := 1
  numTables := 1
  tableSize := fun _ => numPages
  result := fun _ => none
  stackReg := fun _ => none

/-- The first process is to start. -/
def initial (numPages : ℕ) (joinValue : ℕ → ℤ) (initialValue : ℕ → ℤ) : Kernel Pc Data :=
  Kernel.init (.start (some 0)) (start numPages joinValue) initialValue

/-! ## Turns -/

/-- In the user program, or in an exception handler outside the system calls. -/
def Pc.calm : Pc → Bool
  | .loading => true
  | .run => true
  | .trap => true
  | _ => false

/-- A system call that may return from here. -/
def Pc.returns : Pc → Bool
  | .execReturn _ => true
  | .forkFound _ _ _ false => true
  | .forkFreed _ _ => true
  | .forkReturn => true
  | .joinTest _ => true
  | .joinRead _ => true
  | _ => false

/-- The own code of the thread `t` up to its next call. -/
inductive Turn (t : Tid) (d : Data) (view : View) : Pc → Call Pc → Pc → Data → Prop
  | other (pc pc' o) (h : pc.calm = true) (h' : pc'.calm = true) (ho : foreign o = true) :
      Turn t d view pc o pc' d
  | begins (func pc') (h : pc'.calm = true) : Turn t d view (.start func) .oneTick pc'
      { d with stackReg := Function.update d.stackReg t (some (d.initialStackReg t)) }
  | ret (pc value) (h : pc.returns = true) : Turn t d view pc .oneTick .run (d.setResult t value)
  | exec (pc child join numPages) (h : pc.calm = true) :
      Turn t d view pc (.fork child join (.start none)) (.execForked d.numObjects)
        (((d.newSpace numPages).newThread d.numSpaces).forked d.numObjects child)
  | execForked (child) :
      Turn t d view (.execForked child) (.acquire tableLock) (.execAlloc child) d
  | execAlloc (child) : Turn t d view (.execAlloc child) (.release tableLock)
      (.execReturn (d.tablePtr.alloc child).1) { d with tablePtr := (d.tablePtr.alloc child).2 }
  | fork (pc func) (h : pc.calm = true) : Turn t d view pc (.acquire memoryLock)
      (.forkPage func d.numTables (d.spaces (d.mySpace t)).numPages)
        (d.newTable ((d.spaces (d.mySpace t)).numPages + newPages))
  | forkPage (func newTable i found) : Turn t d view (.forkPage func newTable i)
      (.release memoryLock) (.forkFound func newTable i found) d
  | forkNext (func newTable i) (h : i + 1 < (d.spaces (d.mySpace t)).numPages + newPages)
      (hsize : i + 1 < d.tableSize newTable) : Turn t d view (.forkFound func newTable i true)
        (.acquire memoryLock) (.forkPage func newTable (i + 1)) d
  | forkCommit (func newTable i) (h : (d.spaces (d.mySpace t)).numPages + newPages ≤ i + 1) :
      Turn t d view (.forkFound func newTable i true) (.acquire tableLock)
        (.forkAlloc func d.numObjects)
        ((d.enlarge (d.mySpace t) newTable).newThread (d.mySpace t))
  | forkFree (pc i j) (h : pc.returns = true) :
      Turn t d view pc (.acquire memoryLock) (.forkFree i j) d
  | forkFreed (i j) : Turn t d view (.forkFree i j) (.release memoryLock) (.forkFreed i j) d
  | forkAlloc (func object) : Turn t d view (.forkAlloc func object) (.release tableLock)
      (.forkFork func object) { d with tablePtr := (d.tablePtr.alloc object).2 }
  | forkFork (func object child) : Turn t d view (.forkFork func object)
      (.fork child 1 (.start (some func))) .forkReturn (d.forked object child)
  | join (pc id) (h : pc.calm = true) :
      Turn t d view pc (.acquire tableLock) (.joinGet id) d
  | joinGet (id) : Turn t d view (.joinGet id) (.release tableLock)
      (.joinTest (d.tablePtr.get (id - 1))) d
  | joinCall (object u) (h : d.tid object = some u) :
      Turn t d view (.joinTest (some object)) (.join u) (.joinRead object) d
  | exit (pc status) (h : pc.calm = true) : Turn t d view pc (.acquire tableLock) (.exitGet 0)
      { d with joinValue := Function.update d.joinValue (d.self t) status }
  | exitGet (i : ℕ) :
      Turn t d view (.exitGet i) (.release tableLock) (.exitTest i (d.tablePtr.get i)) d
  | exitRelease (i temp) :
      Turn t d view (.exitTest i (some temp)) (.acquire tableLock) (.exitRelease i) d
  | exitReleased (i : ℕ) : Turn t d view (.exitRelease i) (.release tableLock) (.exitNext i)
      { d with tablePtr := d.tablePtr.release i }
  | exitTest (i temp)
      (h : ∀ o, temp = some o → d.deleted view o = false → d.space o ≠ d.mySpace t) :
      Turn t d view (.exitTest i temp) (.acquire tableLock) (.exitGet (i + 1)) d
  | exitNext (i) : Turn t d view (.exitNext i) (.acquire tableLock) (.exitGet (i + 1)) d
  | finishTest (i temp) (hi : TABLESIZE ≤ i + 1)
      (h : ∀ o, temp = some o → d.deleted view o = false → d.space o ≠ d.mySpace t) :
      Turn t d view (.exitTest i temp) .finish .exited d
  | finishNext (i) (hi : TABLESIZE ≤ i + 1) : Turn t d view (.exitNext i) .finish .exited d

section

variable {t : Tid} {pc pc' : Pc} {d d' : Data} {view : View} {o : Call Pc}

theorem turn_of_exitLoop {i : ℕ}
    (hgo : Turn t d view pc (.acquire tableLock) (.exitGet i) d)
    (hend : TABLESIZE ≤ i → Turn t d view pc .finish .exited d)
    (h : exitLoop d i = (o, pc', d')) : Turn t d view pc o pc' d' := by
  unfold exitLoop at h
  split at h
  · cases h
    exact hgo
  · cases h
    exact hend (by omega)

theorem turn_of_freeLoop {i j : ℕ} (hpc : pc.returns = true)
    (h : freeLoop t d i j = (o, pc', d')) : Turn t d view pc o pc' d' := by
  unfold freeLoop at h
  split at h
  · cases h
    exact .forkFree pc i j hpc
  · cases h
    exact .ret pc none hpc

theorem turn_of_joinTest {freed : ℤ} {joinThread : Option ℕ}
    (h : joinTest t d view freed joinThread = some (o, pc', d')) :
    Turn t d view (.joinTest joinThread) o pc' d' := by
  cases joinThread with
  | none =>
      cases h
      exact .ret _ _ rfl
  | some object =>
      simp only [joinTest] at h
      cases htid : d.tid object with
      | none => simp [htid] at h
      | some u =>
          simp only [htid] at h
          by_cases hcan : (if view.deleted u = true then freed else view.join u) = 0
          · rw [if_pos hcan] at h
            cases h
            exact .ret _ _ rfl
          · rw [if_neg hcan] at h
            cases h
            exact .joinCall object u htid

theorem turn_of_exitTest {freed : ℤ} {i : ℕ} {temp : Option ℕ}
    (h : exitTest t d view freed i temp = (o, pc', d')) :
    Turn t d view (.exitTest i temp) o pc' d' := by
  cases temp with
  | none =>
      refine turn_of_exitLoop (.exitTest i none (by simp)) ?_ h
      exact fun hi => .finishTest i none hi (by simp)
  | some temp =>
      simp only [exitTest] at h
      by_cases hown : (if d.deleted view temp = true then freed ≠ 0 else d.space temp = d.mySpace t)
      · rw [if_pos hown] at h
        cases h
        exact .exitRelease i temp
      · rw [if_neg hown] at h
        have hspace : ∀ o, some temp = some o → d.deleted view o = false →
            d.space o ≠ d.mySpace t := by
          rintro o ⟨⟩ hdel heq
          simp [hdel, heq] at hown
        refine turn_of_exitLoop (.exitTest i (some temp) hspace) ?_ h
        exact fun hi => .finishTest i (some temp) hi hspace

theorem turn_of_goOn {freed : ℤ} (h : goOn t d view freed pc = some (o, pc', d')) :
    Turn t d view pc o pc' d' := by
  cases pc with
  | start func =>
      cases h
      refine .begins func _ ?_
      split <;> rfl
  | execForked child =>
      cases h
      exact .execForked child
  | execAlloc child =>
      cases h
      exact .execAlloc child
  | execReturn processID =>
      simp only [goOn] at h
      split at h
      · cases h
      · cases h
        exact .ret _ _ rfl
  | forkFound func newTable i found =>
      cases found with
      | false => exact turn_of_freeLoop rfl (Option.some.inj h)
      | true =>
          simp only [goOn, forkLoop, if_true] at h
          split at h
          · split at h
            · cases h
              exact .forkNext func newTable i ‹_› ‹_›
            · cases h
          · cases h
            exact .forkCommit func newTable i (not_lt.1 ‹_›)
  | forkFree i j =>
      cases h
      exact .forkFreed i j
  | forkFreed i j => exact turn_of_freeLoop rfl (Option.some.inj h)
  | forkAlloc func object =>
      cases h
      exact .forkAlloc func object
  | forkReturn =>
      cases h
      exact .ret _ _ rfl
  | joinGet id =>
      cases h
      exact .joinGet id
  | joinTest joinThread => exact turn_of_joinTest h
  | joinRead object =>
      cases h
      exact .ret _ _ rfl
  | exitGet i =>
      cases h
      exact .exitGet i
  | exitTest i temp => exact turn_of_exitTest (Option.some.inj h)
  | exitRelease i =>
      cases h
      exact .exitReleased i
  | exitNext i =>
      exact turn_of_exitLoop (.exitNext i) (fun hi => .finishNext i hi) (Option.some.inj h)
  | _ => cases h

/-- A new table has an entry for the first page of the stack. -/
theorem forkLoop_first (t : Tid) (d : Data) (funcPtr : BitVec 32) :
    forkLoop t (d.newTable ((d.spaces (d.mySpace t)).numPages + newPages)) funcPtr d.numTables
        (d.spaces (d.mySpace t)).numPages =
      some (.acquire memoryLock, .forkPage funcPtr d.numTables (d.spaces (d.mySpace t)).numPages,
        d.newTable ((d.spaces (d.mySpace t)).numPages + newPages)) := by
  have hpos : 0 < newPages := by decide
  simp [forkLoop, Data.newTable, Data.mySpace, hpos]

theorem turn_of_user {a : Act} (hpc : pc.calm = true) (h : user t d a = some (o, pc', d')) :
    Turn t d view pc o pc' d' := by
  cases a with
  | exec child willJoin numPages =>
      cases h
      exact .exec pc child _ numPages hpc
  | fork funcPtr =>
      rw [user, forkLoop_first, Option.some.injEq] at h
      cases h
      exact .fork pc funcPtr hpc
  | join id =>
      cases h
      exact .join pc id hpc
  | exit status =>
      have hlt : 0 < TABLESIZE := by decide
      simp only [user, exitLoop, if_pos hlt, Option.some.injEq] at h
      cases h
      exact .exit pc status hpc
  | other o' writes =>
      simp only [user] at h
      split at h
      · cases h
        exact .other pc .trap _ hpc rfl ‹_›
      · cases h
  | back writes =>
      cases h
      exact .other pc .run _ hpc rfl rfl
  | _ => cases h

theorem turn_of_loading {a : Act} (h : loading t d a = some (o, pc', d')) :
    Turn t d view .loading o pc' d' := by
  cases a with
  | other o' writes =>
      simp only [loading] at h
      split at h
      · cases h
        exact .other .loading .loading _ rfl rfl ‹_›
      · cases h
  | back writes =>
      cases h
      exact .other .loading .run _ rfl rfl rfl
  | exit status => exact turn_of_user (a := .exit status) rfl h
  | _ => cases h

theorem turn_of_next {a : Act} (h : next t pc d view a = some (o, pc', d')) :
    Turn t d view pc o pc' d' := by
  unfold next at h
  split at h
  · exact turn_of_goOn h
  · split at h
    · cases h
      exact .forkPage _ _ _ _
    · cases h
  · split at h
    · cases h
      exact .forkFork _ _ _
    · cases h
  · split at h
    · exact turn_of_loading h
    · exact turn_of_user rfl h
    · exact turn_of_user rfl h
    · cases h

end

open Kernel in
/-- A step of the user threads: a turn of the current thread up to its next call, or a part of
a kernel routine. -/
theorem step_turn {k k' : Kernel Pc Data} {lab : Label Act} (hcur : k.currentThread < k.numThreads)
    (hinner : ∀ t o, .call o ∈ k.stack t → o.isInner = true) (hs : step client k lab = .ok k') :
    (∃ a o pc, lab = .act a ∧ k.stack k.currentThread = [] ∧
      Turn k.currentThread k.data k.view (k.pc k.currentThread) o pc k'.data ∧
        (k.advance pc k'.data).exec o = .ok k' ∧ Advances k k' o pc) ∨
      k.stack k.currentThread ≠ [] ∧ Quiet k k' := by
  rcases step_advances hcur hinner hs with
    ⟨a, o, pc, rfl, hst, hnext, -, he, hadv⟩ | ⟨a, sems, rfl, heq, hne, hq⟩ | hq
  · exact .inl ⟨a, o, pc, rfl, hst, turn_of_next hnext, he, hadv⟩
  · have hdata : k'.data = k.data := by
      cases a with
      | handle sems' =>
          simp only [client, Option.some.injEq, Prod.mk.injEq] at heq
          exact heq.2.symm
      | _ => cases heq
    exact .inr ⟨hne, hq.pc, hdata, hq.numThreads, hq.join⟩
  · exact .inr hq

end UserThreads

end Nachos
