import Nachos.Lib.Run
import Nachos.Lib.Seating
import Mathlib.Algebra.Group.Nat.Defs

/-!
# The thread kernel

The state of the thread system (`thread.cc`, `scheduler.cc`, `synch.cc` and the
interrupt level of `interrupt.cc`) and the routines that act on it. Every
thread carries the rest of the kernel code it still has to run as a stack of
frames: a routine is cut at the points where the CPU can leave the thread
(`SWITCH` in `Scheduler::Run`, and `OneTick`, which is called when interrupts are
re-enabled) and where it calls another routine. Between two cuts nothing else
can run, since the machine has one processor and time only advances in
`OneTick`.

The queues of the scheduler, of the semaphores, of the locks and of the
conditions are the lists of `list.cc`, indexed by the object that owns them. A
failed `ASSERT` stops the machine. The `log` is a history variable: it is
written by the routines and read by none of them.
-/

namespace Nachos

open Lib

/-- A `Thread *`. -/
abbrev Tid := ℕ

inductive IntStatus where
  | intOff
  | intOn
  deriving DecidableEq, Repr

inductive ThreadStatus where
  | justCreated
  | running
  | ready
  | blocked
  deriving DecidableEq, Repr

/-- A lock or a condition variable: one that a program has made for itself, or
the private `lock` and `cv` members of a `Thread`. -/
inductive Obj where
  | user (n : ℕ)
  | ofThread (t : Tid)
  deriving DecidableEq, Repr

/-- The `List` members that hold threads, named by the object they belong to. -/
inductive QueueId where
  | readyList
  | semaphore (s : ℕ)
  | lock (l : Obj)
  | condition (c : Obj)
  deriving DecidableEq, Repr

/-- The calls a thread can make. `fork t join start` is `new Thread(.., join)`
followed by `Fork`: the new thread starts at the program point `start`. -/
inductive Call (ρ : Type) where
  | P (s : ℕ)
  | V (s : ℕ)
  | acquire (l : Obj)
  | release (l : Obj)
  | wait (c l : Obj)
  | signal (c l : Obj)
  | broadcast (c l : Obj)
  | yield
  | fork (t : Tid) (join : ℤ) (start : ρ)
  | finish
  | join (t : Tid)
  | setPriority (t : Tid) (newPriority : ℤ)
  | oneTick

/-- The lock and the condition of a `Thread` are private members. -/
def Call.isPublic {ρ : Type} : Call ρ → Bool
  | .acquire (.ofThread _) => false
  | .release (.ofThread _) => false
  | .wait (.ofThread _) _ => false
  | .wait _ (.ofThread _) => false
  | .signal (.ofThread _) _ => false
  | .signal _ (.ofThread _) => false
  | .broadcast (.ofThread _) _ => false
  | .broadcast _ (.ofThread _) => false
  | _ => true

/-- What a thread still has to do inside the kernel. -/
inductive Frame (ρ : Type) where
  /-- A call that is about to be made. -/
  | call (o : Call ρ)
  /-- `interrupt->SetLevel(oldLevel)`. -/
  | setLevel (oldLevel : IntStatus)
  /-- `Interrupt::OneTick` has been called. -/
  | oneTick
  /-- The `CheckIfDue` loop of `OneTick`. -/
  | firing
  /-- The loop of `Thread::Sleep`. -/
  | sleepLoop
  /-- `Scheduler::Run` after `SWITCH`. -/
  | afterSwitch
  /-- The loop test of `Semaphore::P` after `Sleep` has returned. -/
  | pRetest (s : ℕ)
  /-- The loop test of `Lock::Acquire` after `Sleep` has returned. -/
  | acquireRetest (l : Obj)
  /-- `Lock::Acquire` returns. -/
  | acquireReturn (l : Obj)
  /-- `Condition::Wait` after its `Release`. -/
  | waitEnqueue (c l : Obj) (oldLevel : IntStatus)
  /-- `Condition::Wait` after its `Sleep`. -/
  | waitWoken (c l : Obj) (oldLevel : IntStatus)
  /-- `Condition::Wait` after its `Acquire`. -/
  | waitReturn (c l : Obj)
  /-- The loop test of `Thread::Finish`. -/
  | finishLoop
  /-- `Thread::Finish` after its `Release`. -/
  | finishDone
  /-- `Thread::Finish` after its `Sleep`, which is not reached. -/
  | finished
  /-- `Thread::Join` after its `Acquire`. -/
  | joinBody (t : Tid)
  /-- `Thread::Join` returns. -/
  | joinReturn (t : Tid)

/-- What the history records. -/
inductive Event where
  /-- `value--` in `P`. -/
  | pDone (s : ℕ) (t : Tid)
  /-- `value++` in `V`. -/
  | vDone (s : ℕ)
  /-- `locked = 1` in `Acquire`. -/
  | acquired (l : Obj) (t : Tid)
  | acquireReturned (l : Obj) (t : Tid)
  | releaseCalled (l : Obj) (t : Tid)
  | waitCalled (c : Obj) (t : Tid)
  | waitQueued (c : Obj) (t : Tid)
  /-- `t` has been removed from `waitQ` by a `Signal` or `Broadcast` of `u`. -/
  | waitRemoved (c : Obj) (t u : Tid)
  | waitReturned (c : Obj) (t : Tid)
  | finishCalled (t : Tid)
  | finishCompleted (t : Tid)
  | joinCalled (t u : Tid)
  | joinReturned (t u : Tid)
  deriving DecidableEq, Repr

/-- The thread system. The members of class `Thread` are functions of the
thread; `pc` and `data` belong to the program that the threads run. -/
structure Kernel (ρ δ : Type) where
  stack : Tid → List (Frame ρ)
  pc : Tid → ρ
  status : Tid → ThreadStatus
  priority : Tid → ℤ
  join : Tid → ℤ
  readyToJoin : Tid → Bool
  isForked : Tid → Bool
  /-- The `Thread` objects made so far are `0, …, numThreads - 1`. -/
  numThreads : ℕ
  currentThread : Tid
  threadToBeDestroyed : Option Tid
  deleted : Tid → Bool
  level : IntStatus
  queue : QueueId → List (Keyed Tid)
  /-- The `value` members of the semaphores, which are of 32 bits. -/
  value : ℕ → ℤ
  locked : Obj → Bool
  threadHeld : Obj → Option Tid
  data : δ
  log : List Event

/-- Why a step is not made: it is not possible here, or an `ASSERT` fails. -/
inductive Stop where
  | disabled
  | assertion
  deriving DecidableEq, Repr

def assertThen {S : Type} (p : Prop) [Decidable p] (x : Except Stop S) : Except Stop S :=
  if p then x else .error .assertion

@[simp] theorem assertThen_ok {S : Type} (p : Prop) [Decidable p] (x : Except Stop S) (s : S) :
    assertThen p x = .ok s ↔ p ∧ x = .ok s := by
  by_cases h : p <;> simp [assertThen, h]

def intMin : ℤ := -2147483648

def intMax : ℤ := 2147483647

/-- `priority * -1` as a 32-bit integer. -/
def negPriority (priority : ℤ) : ℤ := Int.bmod (-priority) (2 ^ 32)

namespace Kernel

variable {ρ δ α : Type}

/-- The current thread has `fs` left to do in the kernel. -/
@[simps -fullyApplied] def setStack (k : Kernel ρ δ) (fs : List (Frame ρ)) : Kernel ρ δ :=
  { k with stack := Function.update k.stack k.currentThread fs }

@[simps -fullyApplied] def push (k : Kernel ρ δ) (f : Frame ρ) : Kernel ρ δ :=
  { k with stack := Function.update k.stack k.currentThread (f :: k.stack k.currentThread) }

@[simps -fullyApplied] def note (k : Kernel ρ δ) (e : Event) : Kernel ρ δ :=
  { k with log := e :: k.log }

@[simps -fullyApplied] def setStatus (k : Kernel ρ δ) (t : Tid) (st : ThreadStatus) : Kernel ρ δ :=
  { k with status := Function.update k.status t st }

/-- `List::SortedInsert(t, t->getPriority() * -1)`. -/
@[simps -fullyApplied] def insert (k : Kernel ρ δ) (q : QueueId) (t : Tid) : Kernel ρ δ :=
  { k with
    queue := Function.update k.queue q
      (sortedInsert ⟨t, negPriority (k.priority t)⟩ (k.queue q)) }

@[simps -fullyApplied] def setQueue (k : Kernel ρ δ) (q : QueueId) (es : List (Keyed Tid)) :
    Kernel ρ δ :=
  { k with queue := Function.update k.queue q es }

/-- `List::Remove`. -/
def remove (k : Kernel ρ δ) (q : QueueId) : Option Tid × Kernel ρ δ :=
  match k.queue q with
  | [] => (none, k)
  | e :: es => (some e.item, k.setQueue q es)

/-- `Scheduler::ReadyToRun`. -/
@[simps -fullyApplied] def readyToRun (k : Kernel ρ δ) (t : Tid) : Kernel ρ δ :=
  { k with
    status := Function.update k.status t .ready
    queue := Function.update k.queue .readyList
      (sortedInsert ⟨t, negPriority (k.priority t)⟩ (k.queue .readyList)) }

/-- `Scheduler::FindNextToRun`. -/
def findNextToRun (k : Kernel ρ δ) : Option Tid × Kernel ρ δ := k.remove .readyList

/-- `Scheduler::Run` up to `SWITCH`. -/
@[simps -fullyApplied] def run (k : Kernel ρ δ) (nextThread : Tid) : Kernel ρ δ :=
  { k with
    stack := Function.update k.stack k.currentThread (.afterSwitch :: k.stack k.currentThread)
    currentThread := nextThread
    status := Function.update k.status nextThread .running }

@[simps -fullyApplied] def disable (k : Kernel ρ δ) : Kernel ρ δ := { k with level := .intOff }

/-- `Interrupt::SetLevel`. -/
def setLevel (k : Kernel ρ δ) (now : IntStatus) : Kernel ρ δ :=
  if now = .intOn ∧ k.level = .intOff then
    { k with level := now }.push .oneTick
  else
    { k with level := now }

/-- `Thread::Sleep` up to its loop. -/
def sleep (k : Kernel ρ δ) : Except Stop (Kernel ρ δ) :=
  assertThen (k.level = .intOff) <|
    .ok ((k.setStatus k.currentThread .blocked).push .sleepLoop)

/-- `thread = queue->Remove(); if (thread != NULL) scheduler->ReadyToRun(thread);`. -/
def wakeOne (k : Kernel ρ δ) (q : QueueId) : Kernel ρ δ :=
  match k.remove q with
  | (none, k') => k'
  | (some t, k') => k'.readyToRun t

/-! ## `Semaphore` -/

/-- The loop of `Semaphore::P` and what follows it. -/
def pLoop (k : Kernel ρ δ) (s : ℕ) : Except Stop (Kernel ρ δ) :=
  if k.value s = 0 then
    ((k.insert (.semaphore s) k.currentThread).push (.pRetest s)).sleep
  else
    .ok ({ k with value := Function.update k.value s (Int.bmod (k.value s - 1) (2 ^ 32)) }.note
      (.pDone s k.currentThread))

/-- `Semaphore::P`. -/
def semP (k : Kernel ρ δ) (s : ℕ) : Except Stop (Kernel ρ δ) :=
  (k.disable.push (.setLevel k.level)).pLoop s

/-- `Semaphore::V` between its two `SetLevel`. -/
def vBody (k : Kernel ρ δ) (s : ℕ) : Kernel ρ δ :=
  let k' := k.wakeOne (.semaphore s)
  { k' with value := Function.update k'.value s (Int.bmod (k'.value s + 1) (2 ^ 32)) }.note
    (.vDone s)

/-- `Semaphore::V`. -/
def semV (k : Kernel ρ δ) (s : ℕ) : Kernel ρ δ :=
  (k.disable.push (.setLevel k.level)).vBody s

/-! ## `Lock` -/

/-- The loop of `Lock::Acquire` and what follows it. -/
def acquireLoop (k : Kernel ρ δ) (l : Obj) : Except Stop (Kernel ρ δ) :=
  if k.locked l then
    ((k.insert (.lock l) k.currentThread).push (.acquireRetest l)).sleep
  else
    .ok ({ k with
      locked := Function.update k.locked l true
      threadHeld := Function.update k.threadHeld l (some k.currentThread) }.note
        (.acquired l k.currentThread))

/-- `Lock::Acquire`. -/
def acquire (k : Kernel ρ δ) (l : Obj) : Except Stop (Kernel ρ δ) :=
  assertThen (k.locked l = false ∨ k.threadHeld l ≠ some k.currentThread) <|
    ((k.disable.push (.acquireReturn l)).push (.setLevel k.level)).acquireLoop l

/-- `Lock::Release`. -/
def release (k : Kernel ρ δ) (l : Obj) : Except Stop (Kernel ρ δ) :=
  assertThen (k.locked l = true ∧ k.threadHeld l = some k.currentThread) <|
    let k' := ((k.disable.push (.setLevel k.level)).note
      (.releaseCalled l k.currentThread)).wakeOne (.lock l)
    .ok { k' with
      locked := Function.update k'.locked l false
      threadHeld := Function.update k'.threadHeld l none }

/-! ## `Condition` -/

/-- `Condition::Wait` up to its call of `Release`. -/
def wait (k : Kernel ρ δ) (c l : Obj) : Except Stop (Kernel ρ δ) :=
  assertThen (k.threadHeld l = some k.currentThread) <|
    .ok (((k.disable.push (.waitEnqueue c l k.level)).push
      (.call (.release l))).note (.waitCalled c k.currentThread))

/-- `Condition::Wait` from its `SortedInsert` to its `Sleep`. -/
def waitEnqueue (k : Kernel ρ δ) (c l : Obj) (oldLevel : IntStatus) :
    Except Stop (Kernel ρ δ) :=
  (((k.insert (.condition c) k.currentThread).note (.waitQueued c k.currentThread)).push
    (.waitWoken c l oldLevel)).sleep

/-- The rest of `Condition::Wait` after its `Sleep`. -/
def waitWoken (k : Kernel ρ δ) (c l : Obj) (oldLevel : IntStatus) : Kernel ρ δ :=
  ((k.push (.waitReturn c l)).push (.call (.acquire l))).push (.setLevel oldLevel)

/-- The body of `Condition::Signal`, and one turn of the loop of `Broadcast`. -/
def signalOne (k : Kernel ρ δ) (c : Obj) : Kernel ρ δ :=
  match k.remove (.condition c) with
  | (none, k') => k'
  | (some t, k') => (k'.readyToRun t).note (.waitRemoved c t k.currentThread)

/-- `Condition::Signal`. -/
def signal (k : Kernel ρ δ) (c l : Obj) : Except Stop (Kernel ρ δ) :=
  assertThen (k.threadHeld l = some k.currentThread) <| .ok (k.signalOne c)

/-- The loop of `Condition::Broadcast`, which turns once for each waiter. -/
def broadcastLoop (c : Obj) : ℕ → Kernel ρ δ → Kernel ρ δ
  | 0, k => k
  | n + 1, k => broadcastLoop c n (k.signalOne c)

/-- `Condition::Broadcast`. -/
def broadcast (k : Kernel ρ δ) (c l : Obj) : Except Stop (Kernel ρ δ) :=
  assertThen (k.threadHeld l = some k.currentThread) <|
    .ok (broadcastLoop c (k.queue (.condition c)).length k)

/-! ## `Thread` -/

/-- `Thread::Yield`. -/
def yield (k : Kernel ρ δ) : Kernel ρ δ :=
  let old := k.level
  match k.disable.findNextToRun with
  | (none, k') => k'.push (.setLevel old)
  | (some t, k') => ((k'.push (.setLevel old)).readyToRun k.currentThread).run t

/-- `new Thread(.., join)` and `Thread::Fork`. The stack of the new thread is the
one `StackAllocate` sets up: `ThreadRoot` enables interrupts and runs the
procedure, whose last call is `Finish`. -/
def fork (k : Kernel ρ δ) (t : Tid) (join : ℤ) (start : ρ) : Except Stop (Kernel ρ δ) :=
  if t = k.numThreads then
    .ok (({ k with
      numThreads := k.numThreads + 1
      join := Function.update k.join t join
      isForked := Function.update k.isForked t true
      stack := Function.update k.stack t [.setLevel .intOn]
      pc := Function.update k.pc t start
      level := .intOff }.push (.setLevel k.level)).readyToRun t)
  else
    .error .disabled

/-- `Thread::Finish` up to its loop. -/
def finish (k : Kernel ρ δ) : Kernel ρ δ :=
  ((k.disable.push .finishLoop).push
    (.call (.acquire (.ofThread k.currentThread)))).note (.finishCalled k.currentThread)

/-- One test of the loop of `Thread::Finish`, with the body of the loop or with
what follows the loop still to be run. -/
def finishLoop (k : Kernel ρ δ) : Kernel ρ δ :=
  let me : Obj := .ofThread k.currentThread
  if k.readyToJoin k.currentThread = false ∧ k.join k.currentThread ≠ 0 then
    (((k.push .finishLoop).push (.call (.signal me me))).push (.call (.wait me me))).push
      (.call (.signal me me))
  else if k.join k.currentThread ≠ 0 then
    (((k.push .finishDone).push (.call (.release me))).push (.call (.wait me me))).push
      (.call (.signal me me))
  else
    ((k.push .finishDone).push (.call (.release me))).push (.call (.signal me me))

/-- The end of `Thread::Finish`. -/
def finishDone (k : Kernel ρ δ) : Except Stop (Kernel ρ δ) :=
  (({ k with threadToBeDestroyed := some k.currentThread }.note
    (.finishCompleted k.currentThread)).push .finished).sleep

/-- `Thread::Join` up to its `Acquire`. -/
def joinCall (k : Kernel ρ δ) (t : Tid) : Except Stop (Kernel ρ δ) :=
  assertThen (k.join t = 1 ∧ k.readyToJoin t = false ∧ k.currentThread ≠ t ∧
      k.isForked t = true) <|
    .ok ((((k.push (.joinReturn t)).push (.joinBody t)).push
      (.call (.acquire (.ofThread t)))).note (.joinCalled k.currentThread t))

/-- `Thread::Join` after its `Acquire`. -/
def joinBody (k : Kernel ρ δ) (t : Tid) : Kernel ρ δ :=
  let him : Obj := .ofThread t
  ((({ k with readyToJoin := Function.update k.readyToJoin t true }.push
    (.call (.release him))).push (.call (.signal him him))).push (.call (.wait him him))).push
      (.call (.signal him him))

/-- `Scheduler::Run` after `SWITCH`: the carcass of a finished thread is deleted,
with the checks of `~Thread`, `~Lock` and `~Condition`. -/
def afterSwitch (k : Kernel ρ δ) : Except Stop (Kernel ρ δ) :=
  match k.threadToBeDestroyed with
  | none => .ok k
  | some t =>
      assertThen (t ≠ k.currentThread ∧ k.locked (.ofThread t) = false ∧
          k.queue (.lock (.ofThread t)) = [] ∧ k.queue (.condition (.ofThread t)) = []) <|
        .ok { k with deleted := Function.update k.deleted t true, threadToBeDestroyed := none }

/-! ## Steps -/

/-- A call made by the current thread. -/
def exec (k : Kernel ρ δ) : Call ρ → Except Stop (Kernel ρ δ)
  | .P s => k.semP s
  | .V s => .ok (k.semV s)
  | .acquire l => k.acquire l
  | .release l => k.release l
  | .wait c l => k.wait c l
  | .signal c l => k.signal c l
  | .broadcast c l => k.broadcast c l
  | .yield => .ok k.yield
  | .fork t join start => k.fork t join start
  | .finish => .ok k.finish
  | .join t => k.joinCall t
  | .setPriority t p => .ok { k with priority := Function.update k.priority t p }
  | .oneTick => .ok (k.push .oneTick)

end Kernel

/-- What a program can read of a `Thread` without a call of its routines. -/
structure View where
  join : Tid → ℤ
  deleted : Tid → Bool

def Kernel.view {ρ δ : Type} (k : Kernel ρ δ) : View where
  join := k.join
  deleted := k.deleted

/-- A program. `next t pc data view a` is the next call of thread `t` and what its own
code does to the shared data up to this call, with `a` standing for every choice
of the program; `handler a data` is an interrupt handler, which changes the data
and calls `V` on the listed semaphores. -/
structure Client (ρ δ α : Type) where
  next : Tid → ρ → δ → View → α → Option (Call ρ × ρ × δ)
  handler : α → δ → Option (List ℕ × δ)

/-- The program in which the thread `t` makes the calls `prog t 0`, `prog t 1`, …. -/
def scripted (prog : Tid → ℕ → Option (Call ℕ)) : Client ℕ Unit Unit where
  next t pc _ _ _ := (prog t pc).map fun o => (o, pc + 1, ())
  handler _ _ := none

/-- The choices in a run: the current thread goes on, its program makes the call
chosen by `a`, an interrupt handler runs, or the time slice ends. -/
inductive Label (α : Type) where
  | go
  | act (a : α)
  | interrupt (a : α)
  | timer

/-- Calls, each with the number of steps in the kernel routines up to the next one. -/
def turns {α : Type} (as : List (α × ℕ)) : List (Label α) :=
  as.flatMap fun a => .act a.1 :: List.replicate a.2 .go

namespace Kernel

variable {ρ δ α : Type}

/-- An interrupt handler. It runs with interrupts off, so its `V` calls do not
tick. -/
def handle (cl : Client ρ δ α) (k : Kernel ρ δ) (a : α) : Except Stop (Kernel ρ δ) :=
  match cl.handler a k.data with
  | none => .error .disabled
  | some (sems, data) => .ok (sems.foldl vBody { k with data := data })

/-- The current thread runs its topmost frame `f`, which has been taken off its
stack. -/
def resume (cl : Client ρ δ α) (k : Kernel ρ δ) :
    Frame ρ → Label α → Except Stop (Kernel ρ δ)
  | .call o, .go => k.exec o
  | .setLevel now, .go => .ok (k.setLevel now)
  | .oneTick, .go => .ok (k.disable.push .firing)
  | .firing, .interrupt a => handle cl (k.push .firing) a
  | .firing, .go => .ok { k with level := .intOn }
  | .firing, .timer => .ok ({ k with level := .intOn }.push (.call .yield))
  | .sleepLoop, .go =>
      match k.findNextToRun with
      | (none, _) => .error .disabled
      | (some t, k') => .ok (k'.run t)
  -- `Interrupt::Idle`: the CPU waits for a handler, and the others that are due then run as well,
  -- also when the first one has made a thread ready
  | .sleepLoop, .interrupt a => handle cl (k.push .sleepLoop) a
  | .afterSwitch, .go => k.afterSwitch
  | .pRetest s, .go => k.pLoop s
  | .acquireRetest l, .go => k.acquireLoop l
  | .acquireReturn l, .go => .ok (k.note (.acquireReturned l k.currentThread))
  | .waitEnqueue c l old, .go => k.waitEnqueue c l old
  | .waitWoken c l old, .go => .ok (k.waitWoken c l old)
  | .waitReturn c l, .go =>
      assertThen (k.threadHeld l = some k.currentThread) <|
        .ok (k.note (.waitReturned c k.currentThread))
  | .finishLoop, .go => .ok k.finishLoop
  | .finishDone, .go => k.finishDone
  | .joinBody t, .go => .ok (k.joinBody t)
  | .joinReturn t, .go => .ok (k.note (.joinReturned k.currentThread t))
  | _, _ => .error .disabled

/-- A frame that an interrupt finds is the one in which the machine lets time pass, and the timer
interrupts handlers only; every other frame goes on. -/
theorem resume_cases {cl : Client ρ δ α} {k k' : Kernel ρ δ} {f : Frame ρ} {lab : Label α}
    (h : resume cl k f lab = .ok k') :
    lab = .go ∨
      (f = .firing ∧ lab = .timer ∧ k' = { k with level := .intOn }.push (.call .yield)) ∨
        ∃ a, lab = .interrupt a ∧ (f = .firing ∨ f = .sleepLoop) ∧
          handle cl (k.push f) a = .ok k' := by
  cases lab with
  | go => exact .inl rfl
  | act a => cases f <;> cases h
  | interrupt a =>
      cases f with
      | firing => exact .inr (.inr ⟨a, rfl, .inl rfl, h⟩)
      | sleepLoop => exact .inr (.inr ⟨a, rfl, .inr rfl, h⟩)
      | _ => cases h
  | timer =>
      cases f with
      | firing =>
          cases h
          exact .inr (.inl ⟨rfl, rfl, rfl⟩)
      | _ => cases h

/-- The loop of `Thread::Sleep` ends with the front of the ready list. -/
theorem sleepLoop_go {cl : Client ρ δ α} {k k' : Kernel ρ δ}
    (h : resume cl k .sleepLoop .go = .ok k') :
    ∃ e es, k.queue .readyList = e :: es ∧ k' = (k.setQueue .readyList es).run e.item := by
  simp only [resume, findNextToRun, remove] at h
  cases hq : k.queue .readyList with
  | nil =>
      rw [hq] at h
      cases h
  | cons e es =>
      rw [hq] at h
      cases h
      exact ⟨e, es, rfl, rfl⟩

theorem afterSwitch_cases {k k' : Kernel ρ δ} (h : k.afterSwitch = .ok k') :
    k.threadToBeDestroyed = none ∧ k' = k ∨
      ∃ t, k.threadToBeDestroyed = some t ∧
        k' = { k with
          deleted := Function.update k.deleted t true
          threadToBeDestroyed := none } := by
  unfold afterSwitch at h
  split at h
  · rename_i hnone
    cases h
    exact .inl ⟨hnone, rfl⟩
  · rename_i t hsome
    simp only [assertThen_ok, Except.ok.injEq] at h
    exact .inr ⟨t, hsome, h.2.symm⟩

/-- The own code of the current thread has gone on to the program point `pc`. -/
@[simps -fullyApplied] def advance (k : Kernel ρ δ) (pc : ρ) (data : δ) : Kernel ρ δ :=
  { k with pc := Function.update k.pc k.currentThread pc, data := data }

/-- The own code of the current thread up to and including its next call. -/
def act (cl : Client ρ δ α) (k : Kernel ρ δ) (a : α) : Except Stop (Kernel ρ δ) :=
  match cl.next k.currentThread (k.pc k.currentThread) k.data k.view a with
  | none => .error .disabled
  | some (o, pc, data) =>
      if o.isPublic then
        (k.advance pc data).exec o
      else
        .error .disabled

/-- One step of the machine. -/
def step (cl : Client ρ δ α) (k : Kernel ρ δ) (lab : Label α) : Except Stop (Kernel ρ δ) :=
  match k.stack k.currentThread, lab with
  | [], .act a => act cl k a
  | [], _ => .error .disabled
  | f :: rest, lab =>
      resume cl (k.setStack rest) f lab

/-- The state after `Initialize`: the main thread runs with interrupts on. -/
def init (start : ρ) (data : δ) (initialValue : ℕ → ℤ) : Kernel ρ δ where
  stack := fun _ => []
  pc := fun _ => start
  status := fun t => if t = 0 then .running else .justCreated
  priority := fun _ => 0
  join := fun _ => 0
  readyToJoin := fun _ => false
  isForked := fun _ => false
  numThreads := 1
  currentThread := 0
  threadToBeDestroyed := none
  deleted := fun _ => false
  level := .intOn
  queue := fun _ => []
  value := initialValue
  locked := fun _ => false
  threadHeld := fun _ => none
  data := data
  log := []

/-- The states of the runs of the program `cl` that starts at `start`. -/
def Runs (cl : Client ρ δ α) (start : ρ) (data : δ) (initialValue : ℕ → ℤ)
    (k : Kernel ρ δ) : Prop :=
  Reachable (step cl) (init start data initialValue) k

end Kernel

end Nachos
