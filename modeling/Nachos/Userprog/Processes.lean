import Nachos.Threads.Handshake
import Nachos.Userprog.Table

/-!
# Exec, Exit and Join

The part of `Exec2`, `SysCallExit` and `Join2` that deals with the process table and the
exit status, as a program over the kernel: a process is a thread, and no process calls
Fork. Every call of `TablePtr` is cut at the `Acquire` and the `Release` of the table's
lock. What Exec does before its `Fork` does not matter here, and neither do the memory
and the pipes of a process.

A process that reads a member of a `Thread` that has been deleted gets what the label says.
The `history` is a history variable of the system calls, the last one first.
-/

namespace Nachos

open Lib

namespace Processes

/-- Where a process is in its system calls. -/
inductive Pc where
  /-- In the user program. -/
  | run
  /-- `Exec2` after its `Fork`. -/
  | execForked (child : Tid) (join : ℤ)
  /-- `TablePtr->Alloc` after its `Acquire`. -/
  | execAlloc (child : Tid) (join : ℤ)
  /-- `Exec2` after its call of `Alloc`. -/
  | execReturn (child : Tid) (join processID : ℤ)
  /-- The `TablePtr->Get(id - 1)` of `Join2` after its `Acquire`. -/
  | joinGet (id : ℤ)
  /-- `Join2` after its call of `Get`. -/
  | joinTest (id : ℤ) (joinThread : Option Tid)
  /-- `Join2` after its call of `Join`. -/
  | joinRead (id : ℤ) (joinThread : Tid)
  /-- The `TablePtr->Get(i)` of `SysCallExit` after its `Acquire`. -/
  | exitGet (i : ℕ)
  /-- `SysCallExit` after its call of `Get`. -/
  | exitTest (i : ℕ) (temp : Option Tid)
  /-- The `TablePtr->Release(i)` of `SysCallExit` after its `Acquire`. -/
  | exitRelease (i : ℕ)
  /-- `SysCallExit` after its call of `Release`. -/
  | exitNext (i : ℕ)
  /-- `SysCallExit` has called `Finish`. -/
  | exited
  deriving DecidableEq

/-- What the history records. -/
inductive Record where
  | execReturned (parent child : Tid) (id join : ℤ)
  | exitCalled (t : Tid) (status : ℤ)
  | joinCalled (t : Tid) (id : ℤ)
  | joinReturned (t : Tid) (id value : ℤ)
  deriving DecidableEq

structure Data where
  tablePtr : Table Tid
  /-- The member `joinValue` of every `Thread`. -/
  joinValue : Tid → ℤ
  history : List Record

/-- The lock of `TablePtr`. -/
def tableLock : Obj := .user 0

/-- What a process does next, and what a handler does. -/
inductive Act where
  /-- Exec, with the new `Thread`. -/
  | exec (child : Tid) (willJoin : ℤ)
  | join (id : ℤ)
  | exit (status : ℤ)
  /-- The system call goes on; `freed` is what a deleted `Thread` holds. -/
  | goOn (freed : ℤ)
  | other (o : Call Pc)
  | handle (sems : List ℕ)

/-- A call that is not part of these system calls. -/
def foreign : Call Pc → Bool
  | .acquire l => l ≠ tableLock
  | .release l => l ≠ tableLock
  | .wait _ l => l ≠ tableLock
  | .fork _ _ _ => false
  | .finish => false
  | .join _ => false
  | _ => true

def Data.note (d : Data) (e : Record) : Data := { d with history := e :: d.history }

/-- The loop of `SysCallExit` from the slot `i` on. -/
def exitLoop (d : Data) (i : ℕ) : Call Pc × Pc × Data :=
  if i < TABLESIZE then
    (.acquire tableLock, .exitGet i, d)
  else
    (.finish, .exited, d)

/-- A process in the user program. -/
def user (t : Tid) (d : Data) : Act → Option (Call Pc × Pc × Data)
  | .exec child willJoin =>
      some (.fork child (willJoin % 2) .run, .execForked child (willJoin % 2), d)
  | .join id => some (.acquire tableLock, .joinGet id, d.note (.joinCalled t id))
  | .exit status =>
      some (exitLoop
        ({ d with joinValue := Function.update d.joinValue t status }.note
          (.exitCalled t status)) 0)
  | .other o => if foreign o then some (o, .run, d) else none
  | .goOn _ => none
  | .handle _ => none

/-- The value that a system call of `Join2` returns. -/
def joinReturn (t : Tid) (d : Data) (id value : ℤ) : Call Pc × Pc × Data :=
  (.oneTick, .run, d.note (.joinReturned t id value))

/-- A process in a system call. -/
def goOn (t : Tid) (d : Data) (view : View) (freed : ℤ) : Pc → Option (Call Pc × Pc × Data)
  | .run => none
  | .execForked child join => some (.acquire tableLock, .execAlloc child join, d)
  | .execAlloc child join =>
      match d.tablePtr.alloc child with
      | (processID, tablePtr) =>
          some (.release tableLock, .execReturn child join processID,
            { d with tablePtr := tablePtr })
  | .execReturn child join processID =>
      some (.oneTick, .run, d.note (.execReturned t child (processID + 1) join))
  | .joinGet id => some (.release tableLock, .joinTest id (d.tablePtr.get (id - 1)), d)
  | .joinTest id none => some (joinReturn t d id (-65535))
  | .joinTest id (some joinThread) =>
      let canJoin := if view.deleted joinThread then freed else view.join joinThread
      if canJoin = 0 then
        some (joinReturn t d id (-65535))
      else
        some (.join joinThread, .joinRead id joinThread, d)
  | .joinRead id joinThread =>
      let value := if view.deleted joinThread then freed else d.joinValue joinThread
      some (joinReturn t d id value)
  | .exitGet i => some (.release tableLock, .exitTest i (d.tablePtr.get i), d)
  | .exitTest i none => some (exitLoop d (i + 1))
  | .exitTest i (some temp) =>
      -- one thread for each address space
      if (if view.deleted temp then freed ≠ 0 else temp = t) then
        some (.acquire tableLock, .exitRelease i, d)
      else
        some (exitLoop d (i + 1))
  | .exitRelease i =>
      some (.release tableLock, .exitNext i, { d with tablePtr := d.tablePtr.release i })
  | .exitNext i => some (exitLoop d (i + 1))
  | .exited => none

def next (t : Tid) (pc : Pc) (d : Data) (view : View) (a : Act) : Option (Call Pc × Pc × Data) :=
  match pc, a with
  | pc, .goOn freed => goOn t d view freed pc
  | .run, a => user t d a
  | _, _ => none

/-- The program of the processes. -/
def client : Client Pc Data Act where
  next := next
  handler a d :=
    match a with
    | .handle sems => some (sems, d)
    | _ => none

/-- The first process is in the table when it starts. -/
def start (maxProcess : ℕ) (joinValue : Tid → ℤ) : Data where
  tablePtr := ((Table.new maxProcess).alloc 0).2
  joinValue := joinValue
  history := []

end Processes

end Nachos
