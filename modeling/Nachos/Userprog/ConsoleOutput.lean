import Nachos.Machine.Translate
import Nachos.Threads.Device

/-!
# Output to the console

`Write2` of `exception.cc` without a pipe, over `SynchConsole::PutChar` and `Console::PutChar`, as a
program over the kernel: any number of processes call it in any order, and the interrupt of a
character comes at any time at which the CPU accepts one. What a program finds in its memory does
not depend on the pages that are resident, so the memory of a process is an array of bytes; a call
of `ReadMem` may raise a page fault first, and then the handler calls the kernel.

`calls` are the calls of `Write2` with their arguments and the memory of the caller, `returned` are
the numbers of those that have returned with their values, and `log` are the bytes on the display,
each with the number of its call.
-/

namespace Nachos

open Lib

namespace ConsoleOutput

/-- The memory of a process, as its program finds it. -/
structure Space where
  numPages : BitVec 32
  bytes : BitVec 32 → Byte

/-- `getNumPages()*PageSize`, as an `unsigned int`. -/
def Space.size (space : Space) : BitVec 32 := space.numPages * BitVec.ofNat 32 pageSize

/-- A call of `Write2`. -/
structure Write where
  buffer : BitVec 32
  size : BitVec 32
  id : ℤ
  space : Space

/-- The variables of `Write2`, and the number of the call. -/
structure Local where
  number : ℕ
  buffer : BitVec 32
  size : BitVec 32
  i : ℕ
  count : ℕ

namespace Local

/-- `buffer + i`. -/
def addr (v : Local) : BitVec 32 := v.buffer + BitVec.ofNat 32 v.i

/-- `i++`. -/
def next (v : Local) : Local := { v with i := v.i + 1 }

/-- `count++`. -/
def counted (v : Local) : Local := { v with count := v.count + 1 }

end Local

/-- Where a thread is in `Write2`. -/
inductive Pc where
  | out
  /-- The thread has called `WriteLock->Acquire`. -/
  | loop (v : Local)
  /-- The first `ReadMem` has raised an exception. -/
  | fault (v : Local)
  /-- `PutChar` after its `P`. -/
  | put (v : Local) (request : ℕ)

structure Data where
  space : Tid → Space
  putBusy : Bool
  /-- The interrupts of the display. -/
  device : Device
  log : List (ℕ × Byte)
  calls : List Write
  returned : List (ℕ × ℤ)

/-- The constructors of `SynchConsole` and `Console`. -/
def Data.new (space : Tid → Space) : Data where
  space := space
  putBusy := false
  device := .new
  log := []
  calls := []
  returned := []

def writeLock : ℕ := 0

/-- The semaphore `w`. -/
def writeDone : ℕ := 0

/-- Why the code of a thread does not go on. -/
inductive Failure where
  | disabled
  /-- `ASSERT(putBusy == FALSE)`. -/
  | putBusy
  deriving DecidableEq

/-- The call does not touch the display and `WriteLock`. -/
def foreign : Call Pc → Bool
  | .P s => s ≠ writeDone
  | .V s => s ≠ writeDone
  | .acquire l => l ≠ .user writeLock
  | .release l => l ≠ .user writeLock
  | .wait _ l => l ≠ .user writeLock
  | .fork _ _ .out => true
  | .fork _ _ _ => false
  | _ => true

/-- What a thread does next, and what a handler does. -/
inductive Act where
  | write2 (buffer size : BitVec 32) (id : ℤ)
  /-- The program goes on, up to a call `o`, and leaves its memory as `space`. -/
  | other (o : Call Pc) (space : Space)
  /-- `ReadMem` returns `TRUE`. -/
  | readMem
  /-- `ReadMem` raises an exception, and its handler goes on to a call `o`. -/
  | fault (o : Call Pc)
  /-- The second `ReadMem` returns `FALSE`. -/
  | failed
  /-- The interrupt of a character. -/
  | written (request : ℕ)
  | handle (sems : List ℕ)

namespace Data

/-- The call number `number` returns `value`. -/
def reply (d : Data) (number : ℕ) (value : ℤ) : Data :=
  { d with returned := d.returned ++ [(number, value)] }

/-- `Console::PutChar`, which is the begin of `SynchConsole::PutChar`. -/
def putChar (d : Data) (t : Tid) (v : Local) (ch : Byte) : Except Failure (Call Pc × Pc × Data) :=
  if d.putBusy then
    .error .putBusy
  else
    .ok (.P writeDone, .put v d.device.issuers.length,
      { d with
        putBusy := true
        device := d.device.issue t
        log := d.log ++ [(v.number, ch)] })

/-- `Console::WriteDone`. -/
def written (d : Data) (request : ℕ) : Data :=
  { d with putBusy := false, device := d.device.complete request }

end Data

/-- `Write2` after its loop. -/
def leave (v : Local) (d : Data) : Except Failure (Call Pc × Pc × Data) :=
  .ok (.release (.user writeLock), .out, d.reply v.number v.count)

/-- The call of `ReadMem`, and `PutChar` if it returns `TRUE`. -/
def readMem (t : Tid) (v : Local) (d : Data) : Act → Except Failure (Call Pc × Pc × Data)
  | .readMem => d.putChar t v ((d.space t).bytes v.addr)
  | .fault o => if foreign o then .ok (o, .fault v, d) else .error .disabled
  | _ => .error .disabled

/-- The loop of `Write2` from its test on. -/
def loop (t : Tid) (v : Local) (d : Data) (a : Act) : Except Failure (Call Pc × Pc × Data) :=
  if (v.i : ℤ) < v.size.toInt then
    if (d.space t).size ≤ v.addr then
      leave v d
    else
      readMem t v.counted d a
  else
    leave v d

/-- What a thread outside `Write2` does next. A call that is refused returns to the program. -/
def outside (t : Tid) (d : Data) : Act → Except Failure (Call Pc × Pc × Data)
  | .write2 buffer size id =>
      let number := d.calls.length
      let d := { d with calls := d.calls ++ [⟨buffer, size, id, d.space t⟩] }
      if id ≠ 1 then
        .ok (.oneTick, .out, d.reply number (-1))
      else if (d.space t).size ≤ buffer then
        .ok (.oneTick, .out, d.reply number (-1))
      else
        .ok (.acquire (.user writeLock), .loop ⟨number, buffer, size, 0, 0⟩, d)
  | .other o space =>
      if foreign o then
        .ok (o, .out, { d with space := Function.update d.space t space })
      else
        .error .disabled
  | _ => .error .disabled

/-- The second `ReadMem`. If it fails, `Write2` returns without `Release`. -/
def readAgain (t : Tid) (v : Local) (d : Data) : Act → Except Failure (Call Pc × Pc × Data)
  | .failed => .ok (.oneTick, .out, d.reply v.number (-1))
  | a => readMem t v d a

/-- The own code of the thread `t` up to its next call. -/
def code (t : Tid) (pc : Pc) (d : Data) (a : Act) : Except Failure (Call Pc × Pc × Data) :=
  match pc with
  | .out => outside t d a
  | .loop v => loop t v d a
  | .fault v => readAgain t v d a
  | .put v _ => loop t v.next d a

/-- The program of the processes that write to the console. `SynchConsole::WriteDone` calls `V`. -/
def client : Client Pc Data Act where
  next t pc d _ a := (code t pc d a).toOption
  handler a d :=
    match a with
    | .written request =>
        if request ∈ d.device.pending then some ([writeDone], d.written request) else none
    | .handle sems => if writeDone ∈ sems then none else some (sems, d)
    | _ => none

/-- The second `ReadMem` fails. -/
def Act.isFailed : Act → Bool
  | .failed => true
  | _ => false

/-! ## What a call is for -/

namespace Write

/-- The call is one for the console, and its buffer is in the memory of the caller. -/
def accepted (w : Write) : Prop := w.id = 1 ∧ w.buffer < w.space.size

instance (w : Write) : Decidable w.accepted := inferInstanceAs (Decidable (_ ∧ _))

def length (w : Write) : ℤ := max 0 (min w.size.toInt (w.space.size.toNat - w.buffer.toNat))

def value (w : Write) : ℤ := if w.accepted then w.length else -1

/-- The bytes of the memory of the caller from `buffer` on. -/
def text (w : Write) : List Byte :=
  if w.accepted then
    (List.range w.length.toNat).map fun i => w.space.bytes (w.buffer + BitVec.ofNat 32 i)
  else
    []

variable {w : Write}

theorem text_of_not_accepted (h : ¬w.accepted) : w.text = [] := if_neg h

theorem length_text (h : w.accepted) : w.text.length = w.length.toNat := by
  rw [text, if_pos h, List.length_map, List.length_range]

theorem text_getElem? (h : w.accepted) {i : ℕ} (hi : i < w.length.toNat) :
    w.text[i]? = some (w.space.bytes (w.buffer + BitVec.ofNat 32 i)) := by
  rw [text, if_pos h, List.getElem?_map, List.getElem?_range hi]
  rfl

/-- The loop goes on as long as there are bytes to be printed. -/
theorem goesOn_iff (h : w.accepted) {i : ℕ} (hi : i ≤ w.length.toNat) :
    (i : ℤ) < w.size.toInt ∧ ¬w.space.size ≤ w.buffer + BitVec.ofNat 32 i ↔ i < w.length.toNat := by
  have hlt : w.buffer.toNat < w.space.size.toNat := h.2
  have hsize := w.space.size.isLt
  unfold length at hi ⊢
  rw [BitVec.le_def, BitVec.toNat_add, BitVec.toNat_ofNat, Nat.mod_eq_of_lt (by omega : i < 2 ^ 32),
    Nat.mod_eq_of_lt (by omega : w.buffer.toNat + i < 2 ^ 32)]
  omega

end Write

/-- The bytes that the call number `c` is to print. -/
def Data.tagged (d : Data) (c : ℕ) : List (ℕ × Byte) :=
  match d.calls[c]? with
  | none => []
  | some w => w.text.map fun ch => (c, ch)

/-- What the calls that have returned are to print, one after the other. -/
def Data.whole (d : Data) : List (ℕ × Byte) := d.returned.flatMap fun r => d.tagged r.1

/-! ## Moves -/

/-- The variables of the thread that is about to test its loop again. -/
def Pc.head : Pc → Option Local
  | .loop v => some v
  | .put v _ => some v.next
  | _ => none

/-- The thread goes on to read a byte. -/
def Data.GoesOn (d : Data) (t : Tid) (v : Local) : Prop :=
  (v.i : ℤ) < v.size.toInt ∧ ¬(d.space t).size ≤ v.addr

/-- The thread calls `ReadMem` with the variables `v`. -/
inductive Reads (t : Tid) (d : Data) (v : Local) : Pc → Prop
  | first (pc : Pc) (u : Local) (hpc : pc.head = some u) (hgoes : d.GoesOn t u)
      (hv : v = u.counted) :
      Reads t d v pc
  | second : Reads t d v (.fault v)

/-- `Write2` up to its call of `Acquire`. -/
def Data.call (d : Data) (t : Tid) (buffer size : BitVec 32) (id : ℤ) : Data :=
  { d with calls := d.calls ++ [⟨buffer, size, id, d.space t⟩] }

/-- The byte at `buffer + i` goes to the display. -/
def Data.put (d : Data) (t : Tid) (v : Local) : Data :=
  { d with
    putBusy := true
    device := d.device.issue t
    log := d.log ++ [(v.number, (d.space t).bytes v.addr)] }

/-- What the own code of the thread `t` does up to its next call. -/
inductive Move (t : Tid) (d : Data) : Pc → Call Pc → Pc → Data → Prop
  | refuse (buffer size : BitVec 32) (id : ℤ)
      (h : ¬(⟨buffer, size, id, d.space t⟩ : Write).accepted) :
      Move t d .out .oneTick .out ((d.call t buffer size id).reply d.calls.length (-1))
  | call (buffer size : BitVec 32) (h : buffer < (d.space t).size) :
      Move t d .out (.acquire (.user writeLock)) (.loop ⟨d.calls.length, buffer, size, 0, 0⟩)
        (d.call t buffer size 1)
  | other (o : Call Pc) (ho : foreign o = true) (space : Space) :
      Move t d .out o .out { d with space := Function.update d.space t space }
  | leave (pc : Pc) (v : Local) (hpc : pc.head = some v) (hends : ¬d.GoesOn t v) :
      Move t d pc (.release (.user writeLock)) .out (d.reply v.number v.count)
  | fault (pc : Pc) (v : Local) (hreads : Reads t d v pc) (o : Call Pc) (ho : foreign o = true) :
      Move t d pc o (.fault v) d
  | put (pc : Pc) (v : Local) (hreads : Reads t d v pc) (hbusy : d.putBusy = false) :
      Move t d pc (.P writeDone) (.put v d.device.issuers.length) (d.put t v)

variable {t : Tid} {pc pc' : Pc} {d d' : Data} {a : Act} {o : Call Pc} {v : Local}

theorem move_of_readMem (hreads : Reads t d v pc) (h : readMem t v d a = .ok (o, pc', d')) :
    Move t d pc o pc' d' := by
  cases a with
  | readMem =>
      simp only [readMem, Data.putChar] at h
      split at h
      · cases h
      · rename_i hbusy
        cases h
        exact .put pc v hreads (by simpa using hbusy)
  | fault o' =>
      simp only [readMem] at h
      split at h
      · rename_i ho
        cases h
        exact .fault pc v hreads _ ho
      · cases h
  | _ => cases h

theorem move_of_loop (hpc : pc.head = some v) (h : loop t v d a = .ok (o, pc', d')) :
    Move t d pc o pc' d' := by
  unfold loop at h
  split at h
  · rename_i hsize
    split at h
    · rename_i hend
      cases h
      exact .leave pc v hpc fun hgoes => hgoes.2 hend
    · rename_i hin
      exact move_of_readMem (.first pc v hpc ⟨hsize, hin⟩ rfl) h
  · rename_i hend
    cases h
    exact .leave pc v hpc fun hgoes => hend hgoes.1

theorem move_of_outside (h : outside t d a = .ok (o, pc', d')) : Move t d .out o pc' d' := by
  cases a with
  | write2 buffer size id =>
      simp only [outside] at h
      split at h
      · rename_i hid
        cases h
        exact .refuse buffer size id fun haccepted => hid haccepted.1
      · rename_i hid
        obtain rfl : id = 1 := not_not.1 hid
        split at h
        · rename_i hbuffer
          cases h
          exact .refuse buffer size 1 fun haccepted => absurd hbuffer (BitVec.not_le.2 haccepted.2)
        · rename_i hbuffer
          cases h
          exact .call buffer size (BitVec.not_le.1 hbuffer)
  | other o' space =>
      simp only [outside] at h
      split at h
      · rename_i ho
        cases h
        exact .other _ ho space
      · cases h
  | _ => cases h

theorem readAgain_eq (ha : a.isFailed = false) : readAgain t v d a = readMem t v d a := by
  cases a with
  | failed => cases ha
  | _ => rfl

theorem move_of_code (h : code t pc d a = .ok (o, pc', d')) (ha : a.isFailed = false) :
    Move t d pc o pc' d' := by
  cases pc with
  | out => exact move_of_outside h
  | loop v => exact move_of_loop rfl h
  | fault v => exact move_of_readMem .second ((readAgain_eq ha).symm.trans h)
  | put v request => exact move_of_loop rfl h

/-- The program without the second failures. -/
def readable : Client Pc Data Act := client.without Act.isFailed

theorem move_of_next {view : View} (h : readable.next t pc d view a = some (o, pc', d')) :
    Move t d pc o pc' d' := by
  simp only [readable, Client.without, client] at h
  split at h
  · cases h
  · rename_i ha
    cases hcode : code t pc d a with
    | error e => simp [hcode, Except.toOption] at h
    | ok r =>
        simp only [hcode, Except.toOption, Option.some.injEq] at h
        subst h
        exact move_of_code hcode (by simpa using ha)

theorem handler_cases {sems : List ℕ} (h : readable.handler a d = some (sems, d')) :
    (∃ i ∈ d.device.pending, d' = d.written i ∧ sems = [writeDone]) ∨
      d' = d ∧ writeDone ∉ sems := by
  cases a with
  | written request =>
      simp only [readable, Client.without, client] at h
      split at h
      · rename_i hmem
        cases h
        exact .inl ⟨request, hmem, rfl, rfl⟩
      · cases h
  | handle sems' =>
      simp only [readable, Client.without, client] at h
      split at h
      · cases h
      · rename_i hmem
        cases h
        exact .inr ⟨rfl, hmem⟩
  | _ => cases h

theorem out_of_fork {c : Tid} {join : ℤ} {start : Pc} (h : foreign (.fork c join start) = true) :
    start = .out := by
  cases start with
  | out => rfl
  | _ => cases h

theorem start_of_fork {view : View} {c : Tid} {join : ℤ} {start : Pc}
    (h : readable.next t pc d view a = some (.fork c join start, pc', d')) : start = .out := by
  generalize ho : Call.fork c join start = o at h
  cases move_of_next h with
  | other o hforeign space =>
      subst ho
      exact out_of_fork hforeign
  | fault pc v hreads o hforeign =>
      subst ho
      exact out_of_fork hforeign
  | _ => cases ho

theorem foreign_about (h : foreign o = true) :
    o.about ≠ some (.lock (.user writeLock)) ∧ (∀ c, o ≠ .wait c (.user writeLock)) ∧
      o.about ≠ some (.semaphore writeDone) := by
  cases o <;> simp_all [foreign, Call.about]

def Pc.inside : Pc → Bool
  | .out => false
  | _ => true

def Pc.entry : Pc → Bool
  | .loop _ => true
  | _ => false

/-- The request that the thread has made. -/
def Pc.waits : Pc → Option ℕ
  | .put _ request => some request
  | _ => none

theorem Pc.inside_of_head (h : pc.head = some v) : pc.inside = true := by
  cases pc with
  | out => cases h
  | _ => rfl

theorem Reads.inside (h : Reads t d v pc) : pc.inside = true := by
  cases h with
  | first pc u hpc hgoes hv => exact Pc.inside_of_head hpc
  | second => rfl

theorem drives :
    readable.Drives .out writeLock writeDone Data.device Pc.inside Pc.entry Pc.waits where
  guards :=
    { crosses := by
        intro t pc d view a o pc' d' h
        cases move_of_next h with
        | refuse buffer size id hnot => exact .stay _ _ (by simp [Call.about]) (by simp)
        | call buffer size hbuffer => exact .enter
        | other o ho space =>
            obtain ⟨hlock, hwait, -⟩ := foreign_about ho
            exact .stay _ o hlock hwait
        | leave pc v hpc hends =>
            rw [Pc.inside_of_head hpc]
            exact .leave
        | fault pc v hreads o ho =>
            obtain ⟨hlock, hwait, -⟩ := foreign_about ho
            rw [hreads.inside]
            exact .stay _ o hlock hwait
        | put pc v hreads hbusy =>
            rw [hreads.inside]
            exact .stay _ _ (by simp [Call.about]) (by simp)
      entry := by
        intro t pc d view a pc' d' h
        generalize ho : Call.acquire (.user writeLock) = o at h
        cases move_of_next h with
        | call buffer size hbuffer => rfl
        | other o hforeign space =>
            subst ho
            simp [foreign] at hforeign
        | fault pc v hreads o hforeign =>
            subst ho
            simp [foreign] at hforeign
        | _ => cases ho
      fork := by
        intro t pc d view a c join start pc' d' h
        rw [start_of_fork h]
        rfl }
  out := rfl
  fork := start_of_fork
  past := by
    intro pc i h
    cases pc with
    | put v request => exact ⟨rfl, rfl⟩
    | _ => cases h
  operates := by
    intro t pc d view a o pc' d' h
    cases move_of_next h with
    | other o ho space => exact .other o (foreign_about ho).2.2
    | fault pc v hreads o ho => exact .other o (foreign_about ho).2.2
    | put pc v hreads hbusy => exact .request hreads.inside
    | _ => exact .other _ (by simp [Call.about])
  handler := by
    intro a d sems d' h
    rcases handler_cases h with ⟨i, hi, rfl, rfl⟩ | ⟨rfl, hmem⟩
    · exact .inl ⟨i, hi, rfl, rfl⟩
    · exact .inr ⟨rfl, List.count_eq_zero.2 hmem⟩

/-! ## The calls in progress -/

def Pc.number : Pc → Option ℕ
  | .out => none
  | .loop v => some v.number
  | .fault v => some v.number
  | .put v _ => some v.number

/-- The call whose bytes are on the display, and how many they are. -/
def Pc.part : Pc → Option (ℕ × ℕ)
  | .fault v => some (v.number, v.i)
  | .put v _ => some (v.number, v.i + 1)
  | _ => none

/-- The call as it has been made. -/
def Local.write (v : Local) (space : Space) : Write := ⟨v.buffer, v.size, 1, space⟩

/-- The thread is in a call that the buffer of which is in its memory. -/
structure Active (d : Data) (t : Tid) (v : Local) : Prop where
  call : d.calls[v.number]? = some (v.write (d.space t))
  accepted : (v.write (d.space t)).accepted
  fresh : v.number ∉ d.returned.map Prod.fst

/-- Where the thread is in the loop of its call. -/
def Pc.At (d : Data) (t : Tid) : Pc → Prop
  | .out => True
  | .loop v => Active d t v ∧ v.i = 0 ∧ v.count = 0
  | .fault v => Active d t v ∧ v.i < (v.write (d.space t)).length.toNat ∧ v.count = v.i + 1
  | .put v _ => Active d t v ∧ v.i < (v.write (d.space t)).length.toNat ∧ v.count = v.i + 1

theorem Pc.At.head (h : pc.At d t) (hpc : pc.head = some v) :
    Active d t v ∧ v.i ≤ (v.write (d.space t)).length.toNat ∧ v.count = v.i := by
  cases pc with
  | out => cases hpc
  | loop u =>
      cases hpc
      obtain ⟨hactive, hi, hcount⟩ := h
      exact ⟨hactive, by omega, by omega⟩
  | fault u => cases hpc
  | put u request =>
      cases hpc
      obtain ⟨hactive, hi, hcount⟩ := h
      exact ⟨⟨hactive.call, hactive.accepted, hactive.fresh⟩, hi, hcount⟩

/-- The loop goes on as long as there are bytes to be printed. -/
theorem Active.goesOn_iff (h : Active d t v) (hi : v.i ≤ (v.write (d.space t)).length.toNat) :
    d.GoesOn t v ↔ v.i < (v.write (d.space t)).length.toNat :=
  Write.goesOn_iff h.accepted hi

theorem Pc.At.reads (h : pc.At d t) (hreads : Reads t d v pc) :
    Active d t v ∧ v.i < (v.write (d.space t)).length.toNat ∧ v.count = v.i + 1 := by
  cases hreads with
  | first pc u hpc hgoes hv =>
      obtain ⟨hactive, hi, hcount⟩ := h.head hpc
      subst hv
      exact ⟨⟨hactive.call, hactive.accepted, hactive.fresh⟩, (hactive.goesOn_iff hi).1 hgoes,
        congrArg (· + 1) hcount⟩
  | second => exact h

theorem Pc.number_of_head (h : pc.head = some v) : pc.number = some v.number := by
  cases pc with
  | out => cases h
  | loop u =>
      cases h
      rfl
  | fault u => cases h
  | put u request =>
      cases h
      rfl

theorem Reads.number (h : Reads t d v pc) : pc.number = some v.number := by
  cases h with
  | first pc u hpc hgoes hv =>
      have hnumber := Pc.number_of_head hpc
      subst hv
      exact hnumber
  | second => rfl

/-- What another thread does leaves a call as it is. -/
theorem Pc.At.frame (ws : List Write) (rs : List (ℕ × ℤ)) (h : pc.At d t)
    (hcalls : d'.calls = d.calls ++ ws) (hspace : d'.space t = d.space t)
    (hreturned : d'.returned = d.returned ++ rs)
    (hfresh : ∀ c, pc.number = some c → c ∉ rs.map Prod.fst) : pc.At d' t := by
  have hactive : ∀ {v : Local}, pc.number = some v.number → Active d t v → Active d' t v := by
    intro v hnumber hv
    refine ⟨?_, ?_, ?_⟩
    · rw [hspace, hcalls, List.getElem?_append_left
        (List.getElem?_eq_some_iff.1 hv.call).1, hv.call]
    · rw [hspace]
      exact hv.accepted
    · rw [hreturned, List.map_append, List.mem_append]
      rintro (hmem | hmem)
      · exact hv.fresh hmem
      · exact hfresh _ hnumber hmem
  cases pc with
  | out => trivial
  | loop v => exact ⟨hactive rfl h.1, h.2⟩
  | fault v =>
      refine ⟨hactive rfl h.1, ?_⟩
      rw [hspace]
      exact h.2
  | put v request =>
      refine ⟨hactive rfl h.1, ?_⟩
      rw [hspace]
      exact h.2

/-! ## The display -/

theorem Data.tagged_of_call {c : ℕ} {w : Write} (h : d.calls[c]? = some w) :
    d.tagged c = w.text.map fun ch => (c, ch) := by
  rw [Data.tagged, h]

/-- A call that has been made is to print the same bytes later on. -/
theorem Data.tagged_append {c : ℕ} {w : Write} {ws : List Write} (h : d.calls[c]? = some w)
    (hcalls : d'.calls = d.calls ++ ws) : d'.tagged c = d.tagged c := by
  rw [d.tagged_of_call h, d'.tagged_of_call (w := w)]
  rw [hcalls, List.getElem?_append_left (List.getElem?_eq_some_iff.1 h).1, h]

theorem Active.length_tagged (h : Active d t v) :
    (d.tagged v.number).length = (v.write (d.space t)).length.toNat := by
  rw [d.tagged_of_call h.call, List.length_map, Write.length_text h.accepted]

theorem Active.tagged_getElem? (h : Active d t v) (hi : v.i < (v.write (d.space t)).length.toNat) :
    (d.tagged v.number)[v.i]? = some (v.number, (d.space t).bytes v.addr) := by
  rw [d.tagged_of_call h.call, List.getElem?_map, Write.text_getElem? h.accepted hi]
  rfl

/-- On the display are the bytes of the calls that have returned, and `rest` of the call in
progress. -/
structure Shows (pcs : Tid → Pc) (d : Data) (rest : List (ℕ × Byte)) : Prop where
  log : d.log = d.whole ++ rest
  part : ∀ t c n, (pcs t).part = some (c, n) → rest = (d.tagged c).take n
  quiet : (∀ t, (pcs t).part = none) → rest = []

variable {pcs : Tid → Pc} {rest : List (ℕ × Byte)}

/-- What the thread that is alone in the section has printed, before it tests its loop. -/
theorem Shows.head (h : Shows pcs d rest) (hat : (pcs t).At d t) (hpc : (pcs t).head = some v)
    (halone : ∀ u, (pcs u).part ≠ none → u = t) : rest = (d.tagged v.number).take v.i := by
  cases hpcs : pcs t with
  | out =>
      rw [hpcs] at hpc
      cases hpc
  | loop u =>
      rw [hpcs] at hpc hat
      cases hpc
      obtain ⟨-, hi, -⟩ := hat
      rw [hi, List.take_zero]
      refine h.quiet fun w => ?_
      by_contra hne
      have hw := halone w hne
      rw [hw, hpcs] at hne
      exact hne rfl
  | fault u =>
      rw [hpcs] at hpc
      cases hpc
  | put u request =>
      rw [hpcs] at hpc
      cases hpc
      exact h.part t u.number (u.i + 1) (by rw [hpcs]; rfl)

theorem Shows.reads (h : Shows pcs d rest) (hat : (pcs t).At d t) (hreads : Reads t d v (pcs t))
    (halone : ∀ u, (pcs u).part ≠ none → u = t) : rest = (d.tagged v.number).take v.i := by
  generalize hpc : pcs t = pc at hreads
  cases hreads with
  | first pc u hhead hgoes hv =>
      subst hpc
      have hrest := h.head hat hhead halone
      subst hv
      exact hrest
  | second => exact h.part t v.number v.i (by rw [hpc]; rfl)

/-- What the calls have printed and returned. -/
structure Sound (pcs : Tid → Pc) (d : Data) : Prop where
  busy : d.putBusy = true → d.device.pending ≠ []
  position : ∀ t, (pcs t).At d t
  distinct : ∀ t u c, (pcs t).number = some c → (pcs u).number = some c → t = u
  returned : ∀ r ∈ d.returned, ∃ w, d.calls[r.1]? = some w ∧ r.2 = w.value
  nodup : (d.returned.map Prod.fst).Nodup
  shows : ∃ rest, Shows pcs d rest

namespace Sound

theorem new (space : Tid → Space) : Sound (fun _ => .out) (Data.new space) where
  busy := by simp [Data.new]
  position _ := trivial
  distinct := by simp [Pc.number]
  returned := by simp [Data.new]
  nodup := by simp [Data.new]
  shows := ⟨[], rfl, by simp [Pc.part], fun _ => rfl⟩

theorem number_lt (h : Sound pcs d) {u : Tid} {c : ℕ} (hnumber : (pcs u).number = some c) :
    ∃ w, d.calls[c]? = some w := by
  have hat := h.position u
  cases hpc : pcs u with
  | out =>
      rw [hpc] at hnumber
      cases hnumber
  | _ =>
      rw [hpc] at hnumber hat
      cases hnumber
      exact ⟨_, hat.1.call⟩

theorem tagged_part (h : Sound pcs d) {u : Tid} {c n : ℕ} {ws : List Write}
    (hpart : (pcs u).part = some (c, n)) (hcalls : d'.calls = d.calls ++ ws) :
    d'.tagged c = d.tagged c := by
  have hnumber : (pcs u).number = some c := by
    cases hpc : pcs u <;> rw [hpc] at hpart <;> cases hpart <;> rfl
  obtain ⟨w, hw⟩ := h.number_lt hnumber
  exact Data.tagged_append hw hcalls

theorem whole_eq (h : Sound pcs d) (ws : List Write) (rs : List (ℕ × ℤ))
    (hcalls : d'.calls = d.calls ++ ws) (hreturned : d'.returned = d.returned ++ rs) :
    d'.whole = d.whole ++ rs.flatMap fun r => d'.tagged r.1 := by
  have hold : (d.returned.flatMap fun r => d'.tagged r.1) = d.whole := by
    refine List.flatMap_congr fun r hr => ?_
    obtain ⟨w, hw, -⟩ := h.returned r hr
    exact Data.tagged_append hw hcalls
  rw [Data.whole, hreturned, List.flatMap_append, hold]

/-- The thread `t` goes on, and perhaps its call returns. -/
theorem move_on (h : Sound pcs d) (ws : List Write) (reply : Option (ℕ × ℤ))
    (hcalls : d'.calls = d.calls ++ ws) (hreturned : d'.returned = d.returned ++ reply.toList)
    (hspace : ∀ u, u ≠ t → d'.space u = d.space u)
    (hbusy : d'.putBusy = true → d'.device.pending ≠ []) (hat : pc'.At d' t)
    (hnumber : ∀ c, pc'.number = some c → ∀ u, u ≠ t → (pcs u).number ≠ some c)
    (hreply : ∀ r, reply = some r → (∃ w, d'.calls[r.1]? = some w ∧ r.2 = w.value) ∧
      r.1 ∉ d.returned.map Prod.fst ∧ ∀ u, u ≠ t → (pcs u).number ≠ some r.1)
    (hshows : ∃ rest, Shows (Function.update pcs t pc') d' rest) :
    Sound (Function.update pcs t pc') d' := by
  refine ⟨hbusy, ?_, ?_, ?_, ?_, hshows⟩
  · intro u
    by_cases hut : u = t
    · rw [hut, Function.update_self]
      exact hat
    · rw [Function.update_of_ne hut]
      refine (h.position u).frame _ _ hcalls (hspace u hut) hreturned ?_
      intro c hc hmem
      cases hr : reply with
      | none => simp [hr] at hmem
      | some r =>
          rw [hr, Option.toList_some, List.map_singleton, List.mem_singleton] at hmem
          exact (hreply r hr).2.2 u hut (hmem ▸ hc)
  · intro u v c hu hv
    by_cases hut : u = t
    · by_cases hvt : v = t
      · rw [hut, hvt]
      · rw [hut, Function.update_self] at hu
        rw [Function.update_of_ne hvt] at hv
        exact absurd hv (hnumber c hu v hvt)
    · rw [Function.update_of_ne hut] at hu
      by_cases hvt : v = t
      · rw [hvt, Function.update_self] at hv
        exact absurd hu (hnumber c hv u hut)
      · rw [Function.update_of_ne hvt] at hv
        exact h.distinct u v c hu hv
  · intro r hr
    rw [hreturned, List.mem_append, Option.mem_toList] at hr
    rcases hr with hr | hr
    · obtain ⟨w, hw, hvalue⟩ := h.returned r hr
      refine ⟨w, ?_, hvalue⟩
      rw [hcalls, List.getElem?_append_left (List.getElem?_eq_some_iff.1 hw).1, hw]
    · exact (hreply r hr).1
  · rw [hreturned, List.map_append]
    cases hr : reply with
    | none => simpa using h.nodup
    | some r =>
        rw [Option.toList_some, List.map_singleton, List.nodup_append]
        refine ⟨h.nodup, List.nodup_singleton _, ?_⟩
        intro c hc e he heq
        rw [List.mem_singleton] at he
        exact (hreply r hr).2.1 (he ▸ heq ▸ hc)

/-- A thread outside the section prints nothing. -/
theorem shows_outside (h : Sound pcs d) (ws : List Write) (reply : Option (ℕ × ℤ))
    (hcalls : d'.calls = d.calls ++ ws) (hreturned : d'.returned = d.returned ++ reply.toList)
    (hlog : d'.log = d.log) (hnothing : ∀ r, reply = some r → d'.tagged r.1 = [])
    (hpart : (pcs t).part = none) (hpart' : pc'.part = none) :
    ∃ rest, Shows (Function.update pcs t pc') d' rest := by
  obtain ⟨rest, hrest⟩ := h.shows
  have hsame : ∀ u, (Function.update pcs t pc' u).part = (pcs u).part := by
    intro u
    by_cases hut : u = t
    · rw [hut, Function.update_self, hpart, hpart']
    · rw [Function.update_of_ne hut]
  have hwhole : d'.whole = d.whole := by
    rw [h.whole_eq _ _ hcalls hreturned]
    cases hr : reply with
    | none => simp
    | some r => simp [hnothing r hr]
  refine ⟨rest, ?_, ?_, ?_⟩
  · rw [hlog, hwhole, hrest.log]
  · intro u c n hu
    rw [hsame] at hu
    rw [h.tagged_part hu hcalls]
    exact hrest.part u c n hu
  · intro hnone
    exact hrest.quiet fun u => hsame u ▸ hnone u

end Sound

/-- What is on the display when only the thread `t` has a part of it. -/
theorem shows_alone (hlog : d.log = d.whole ++ rest) (halone : ∀ u, (pcs u).part ≠ none → u = t)
    (hpart : ∀ c n, pc.part = some (c, n) → rest = (d.tagged c).take n)
    (hnone : pc.part = none → rest = []) : Shows (Function.update pcs t pc) d rest where
  log := hlog
  part := by
    intro u c n hu
    by_cases hut : u = t
    · rw [hut, Function.update_self] at hu
      exact hpart c n hu
    · rw [Function.update_of_ne hut] at hu
      exact absurd (halone u (by simp [hu])) hut
  quiet := by
    intro hall
    refine hnone ?_
    have ht := hall t
    rwa [Function.update_self] at ht

namespace Sound

/-- `Write2` returns after its loop. -/
theorem leave (h : Sound pcs d) (hpc : (pcs t).head = some v) (hends : ¬d.GoesOn t v)
    (halone : ∀ u, (pcs u).part ≠ none → u = t) :
    Sound (Function.update pcs t .out) (d.reply v.number v.count) := by
  obtain ⟨hactive, hi, hcount⟩ := (h.position t).head hpc
  -- the loop has ended since every byte is printed
  have hall : v.i = (v.write (d.space t)).length.toNat := by
    have hnot := mt (hactive.goesOn_iff hi).2 hends
    omega
  obtain ⟨rest, hrest⟩ := h.shows
  refine h.move_on [] (some (v.number, v.count)) (by simp [Data.reply]) rfl
    (fun u _ => rfl) h.busy trivial (by simp [Pc.number]) ?_ ⟨[], ?_⟩
  · rintro r ⟨⟩
    refine ⟨⟨_, hactive.call, ?_⟩, hactive.fresh, ?_⟩
    · rw [Write.value, if_pos hactive.accepted, hcount, hall]
      exact Int.toNat_of_nonneg (le_max_left _ _)
    · intro u hut hu
      exact hut (h.distinct u t _ hu (Pc.number_of_head hpc))
  · refine shows_alone ?_ halone (by simp [Pc.part]) fun _ => rfl
    have hprinted := hrest.head (h.position t) hpc halone
    rw [List.take_of_length_le (by rw [hactive.length_tagged, hall])] at hprinted
    rw [@whole_eq d (d.reply v.number v.count) pcs h [] _ (by simp [Data.reply]) rfl]
    simp only [List.flatMap_singleton, List.append_nil]
    rw [show (d.reply v.number v.count).log = d.log from rfl, hrest.log, hprinted]
    rfl

/-- The first `ReadMem` raises an exception. -/
theorem fault (h : Sound pcs d) (hreads : Reads t d v (pcs t))
    (halone : ∀ u, (pcs u).part ≠ none → u = t) : Sound (Function.update pcs t (.fault v)) d := by
  obtain ⟨rest, hrest⟩ := h.shows
  refine h.move_on [] none (by simp) (by simp) (fun u _ => rfl) h.busy
    ((h.position t).reads hreads) ?_ (by simp) ⟨rest, ?_⟩
  · rintro c ⟨⟩ u hut hu
    exact hut (h.distinct u t _ hu hreads.number)
  · refine shows_alone hrest.log halone ?_ (by simp [Pc.part])
    rintro c n ⟨⟩
    exact hrest.reads (h.position t) hreads halone

/-- A byte is printed. -/
theorem put (h : Sound pcs d) (hreads : Reads t d v (pcs t))
    (halone : ∀ u, (pcs u).part ≠ none → u = t) (request : ℕ) :
    Sound (Function.update pcs t (.put v request)) (d.put t v) := by
  obtain ⟨hactive, hi, hcount⟩ := (h.position t).reads hreads
  obtain ⟨rest, hrest⟩ := h.shows
  refine h.move_on [] none (by simp [Data.put]) (by simp [Data.put])
    (fun u _ => rfl) (by simp [Data.put, Device.issue])
    ⟨⟨hactive.call, hactive.accepted, hactive.fresh⟩, hi, hcount⟩ ?_ (by simp)
    ⟨(d.tagged v.number).take (v.i + 1), ?_⟩
  · rintro c ⟨⟩ u hut hu
    exact hut (h.distinct u t _ hu hreads.number)
  · refine shows_alone ?_ halone ?_ (by simp [Pc.part])
    · have hprinted := hrest.reads (h.position t) hreads halone
      rw [List.take_add_one, hactive.tagged_getElem? hi, Option.toList_some, ← hprinted,
        ← List.append_assoc]
      exact congrArg (· ++ _) hrest.log
    · rintro c n ⟨⟩
      rfl

/-- The call of `Write2` up to its first call of the kernel. -/
theorem call (h : Sound pcs d) (hpc : pcs t = .out) (buffer size : BitVec 32)
    (hbuffer : buffer < (d.space t).size) :
    Sound (Function.update pcs t (.loop ⟨d.calls.length, buffer, size, 0, 0⟩))
      (d.call t buffer size 1) := by
  have hnew : ∀ {w}, d.calls[d.calls.length]? ≠ some w := by simp
  refine h.move_on [_] none rfl (by simp [Data.call]) (fun u _ => rfl) h.busy
    ⟨⟨?_, ⟨rfl, hbuffer⟩, ?_⟩, rfl, rfl⟩ ?_ (by simp)
    (h.shows_outside [_] none rfl (by simp [Data.call]) rfl (by simp) (by rw [hpc]; rfl)
      rfl)
  · exact List.getElem?_concat_length
  · rintro hmem
    obtain ⟨r, hr, hnumber⟩ := List.mem_map.1 hmem
    obtain ⟨w, hw, -⟩ := h.returned r hr
    exact hnew (hnumber ▸ hw)
  · rintro c ⟨⟩ u - hu
    obtain ⟨w, hw⟩ := h.number_lt hu
    exact hnew hw

/-- A call that is refused. -/
theorem refuse (h : Sound pcs d) (hpc : pcs t = .out) {buffer size : BitVec 32} {id : ℤ}
    (hnot : ¬(⟨buffer, size, id, d.space t⟩ : Write).accepted) :
    Sound (Function.update pcs t .out) ((d.call t buffer size id).reply d.calls.length (-1)) := by
  have hnew : ∀ {w}, d.calls[d.calls.length]? ≠ some w := by simp
  have hcall : (d.calls ++ [(⟨buffer, size, id, d.space t⟩ : Write)])[d.calls.length]? =
      some ⟨buffer, size, id, d.space t⟩ := List.getElem?_concat_length
  refine h.move_on [_] (some (d.calls.length, -1)) rfl rfl (fun u _ => rfl) h.busy
    trivial (by simp [Pc.number]) ?_
    (h.shows_outside [_] (some (d.calls.length, -1)) rfl rfl rfl ?_
      (by rw [hpc]; rfl) rfl)
  · rintro r ⟨⟩
    refine ⟨⟨_, hcall, (if_neg hnot).symm⟩, ?_, ?_⟩
    · rintro hmem
      obtain ⟨r, hr, hnumber⟩ := List.mem_map.1 hmem
      obtain ⟨w, hw, -⟩ := h.returned r hr
      exact hnew (hnumber ▸ hw)
    · intro u _ hu
      obtain ⟨w, hw⟩ := h.number_lt hu
      exact hnew hw
  · rintro r ⟨⟩
    rw [Data.tagged_of_call (d := (d.call t buffer size id).reply d.calls.length (-1)) hcall,
      Write.text_of_not_accepted hnot]
    rfl

/-- The program goes on. -/
theorem other (h : Sound pcs d) (hpc : pcs t = .out) (space : Space) :
    Sound (Function.update pcs t .out) { d with space := Function.update d.space t space } := by
  refine h.move_on [] none (by simp) (by simp) ?_ h.busy trivial
    (by simp [Pc.number]) (by simp)
    (h.shows_outside [] none (by simp) (by simp) rfl (by simp) (by rw [hpc]; rfl) rfl)
  intro u hut
  exact Function.update_of_ne hut ..

/-- The own code of a thread, which is alone when it is in the section. -/
theorem move (h : Sound pcs d) (hmove : Move t d (pcs t) o pc' d')
    (halone : (pcs t).inside = true → ∀ u, (pcs u).part ≠ none → u = t) :
    Sound (Function.update pcs t pc') d' := by
  generalize hpc : pcs t = pc at hmove
  cases hmove with
  | refuse buffer size id hnot => exact h.refuse hpc hnot
  | call buffer size hbuffer => exact h.call hpc buffer size hbuffer
  | other o ho space => exact h.other hpc space
  | leave pc v hhead hends =>
      subst hpc
      exact h.leave hhead hends (halone (Pc.inside_of_head hhead))
  | fault pc v hreads o ho =>
      subst hpc
      exact h.fault hreads (halone hreads.inside)
  | put pc v hreads hbusy =>
      subst hpc
      exact h.put hreads (halone hreads.inside) _

theorem written (h : Sound pcs d) (request : ℕ) : Sound pcs (d.written request) where
  busy := by simp [Data.written]
  position t := (h.position t).frame [] [] (by simp [Data.written]) rfl
    (by simp [Data.written]) (by simp)
  distinct := h.distinct
  returned := h.returned
  nodup := h.nodup
  shows := by
    obtain ⟨rest, hrest⟩ := h.shows
    exact ⟨rest, hrest.log, hrest.part, hrest.quiet⟩

end Sound

open Kernel

variable {k : Kernel Pc Data} {space : Tid → Space} {initialValue : ℕ → ℤ}

theorem runs_device
    (hr : Runs readable .out (Data.new space) (Function.update initialValue writeDone 0) k) :
    Device.Sound Data.device Pc.waits k.pc k.data :=
  Device.sound drives rfl (Function.update_self ..) hr

/-- A thread in its own code in the section is the only one that prints. -/
theorem alone (hr : Runs readable .out (Data.new space)
    (Function.update initialValue writeDone 0) k)
    (hin : (k.pc t).inside = true) (hnil : k.stack t = []) {u : Tid} (hu : (k.pc u).part ≠ none) :
    u = t := by
  have hpast : (k.pc u).inside = true ∧ (k.pc u).entry = false := by
    cases hpc : k.pc u with
    | fault v => exact ⟨rfl, rfl⟩
    | put v request => exact ⟨rfl, rfl⟩
    | _ =>
        rw [hpc] at hu
        exact absurd rfl hu
  exact drives.guards.unique rfl hr hpast.1 hin (.inl hpast.2) (.inr hnil)

theorem runs_sound
    (hr : Runs readable .out (Data.new space) (Function.update initialValue writeDone 0) k) :
    Sound k.pc k.data := by
  refine hr.program_invariant (I := Sound) start_of_fork (.new space) ?_ ?_
  · intro k a o pc d hr hi hnil hnext
    exact hi.move (move_of_next hnext) fun hin u hu => alone hr hin hnil hu
  · intro k a sems d hr hi hhandler
    rcases handler_cases hhandler with ⟨i, -, rfl, -⟩ | ⟨rfl, -⟩
    · exact hi.written i
    · exact hi

/-- The display is idle when a thread in the section is in its own code. -/
theorem not_putBusy
    (hr : Runs readable .out (Data.new space) (Function.update initialValue writeDone 0) k)
    (hin : (k.pc t).inside = true) (hnil : k.stack t = []) : k.data.putBusy = false := by
  have hidle := (runs_device hr).idle drives rfl (Function.update_self ..) hr hin hnil
  cases hbusy : k.data.putBusy with
  | false => rfl
  | true => exact absurd hidle ((runs_sound hr).busy hbusy)

theorem readMem_ne_putBusy (hbusy : d.putBusy = false) : readMem t v d a ≠ .error .putBusy := by
  cases a with
  | fault o =>
      simp only [readMem]
      split <;> simp
  | readMem => simp [readMem, Data.putChar, hbusy]
  | _ => simp [readMem]

theorem loop_ne_putBusy (hbusy : d.putBusy = false) : loop t v d a ≠ .error .putBusy := by
  unfold loop
  split
  · split
    · simp [leave]
    · exact readMem_ne_putBusy hbusy
  · simp [leave]

theorem outside_ne_putBusy : outside t d a ≠ .error .putBusy := by
  cases a with
  | write2 buffer size id =>
      simp only [outside]
      split
      · simp
      · split <;> simp
  | other o space =>
      simp only [outside]
      split <;> simp
  | _ => simp [outside]

theorem code_ne_putBusy (hbusy : pc.inside = true → d.putBusy = false) :
    code t pc d a ≠ .error .putBusy := by
  cases pc with
  | out => exact outside_ne_putBusy
  | loop v => exact loop_ne_putBusy (hbusy rfl)
  | fault v =>
      cases ha : a.isFailed with
      | false =>
          rw [code, readAgain_eq ha]
          exact readMem_ne_putBusy (hbusy rfl)
      | true =>
          cases a with
          | failed => simp [code, readAgain]
          | _ => cases ha
  | put v request => exact loop_ne_putBusy (hbusy rfl)

/-- `Write2` can go on, if the display is idle. -/
theorem exists_code (hin : pc.inside = true) (hbusy : d.putBusy = false) :
    ∃ r, code t pc d .readMem = .ok r := by
  have hread : ∀ v, ∃ r, readMem t v d .readMem = .ok r := by
    intro v
    simp [readMem, Data.putChar, hbusy]
  have hloop : ∀ v, ∃ r, loop t v d .readMem = .ok r := by
    intro v
    unfold loop
    split
    · split
      · exact ⟨_, rfl⟩
      · exact hread _
    · exact ⟨_, rfl⟩
  cases pc with
  | out => cases hin
  | loop v => exact hloop v
  | fault v => exact hread v
  | put v request => exact hloop v.next

/-- In every run in which no byte of the memory fails twice to be read: `ASSERT(putBusy == FALSE)`
does not fail, and `Write2` can go on; a call returns -1 if it is not for the console or its buffer
is outside of the memory, and otherwise the number of bytes up to the end of the memory, at most
`size`; on the display are the bytes of the calls that have returned, one call after the other, and
then the first bytes of one more call, which is in progress. -/
theorem console_output_exact (space : Tid → Space) (initialValue : ℕ → ℤ) (labs : List (Label Act))
    (k : Kernel Pc Data)
    (h : runFrom (step client)
      (init .out (Data.new space) (Function.update initialValue writeDone 0)) labs = .ok k)
    (hread : .act .failed ∉ labs) :
    (∀ t a, k.stack t = [] → code t (k.pc t) k.data a ≠ .error .putBusy) ∧
      (∀ t, k.stack t = [] → k.pc t ≠ .out → ∃ r, code t (k.pc t) k.data .readMem = .ok r) ∧
        (∀ r ∈ k.data.returned, ∃ w, k.data.calls[r.1]? = some w ∧ r.2 = w.value) ∧
          (k.data.returned.map Prod.fst).Nodup ∧
            ∃ c n, c ∉ k.data.returned.map Prod.fst ∧
              k.data.log = k.data.whole ++ (k.data.tagged c).take n ∧
                ((∀ t, k.pc t = .out) → n = 0) := by
  have hr : Runs readable .out (Data.new space) (Function.update initialValue writeDone 0) k := by
    refine Runs.without h fun a ha => ?_
    cases a with
    | failed => exact absurd ha hread
    | _ => rfl
  have hk := runs_sound hr
  refine ⟨?_, ?_, hk.returned, hk.nodup, ?_⟩
  · intro t a hnil
    exact code_ne_putBusy fun hin => not_putBusy hr hin hnil
  · intro t hnil hpc
    have hin : (k.pc t).inside = true := by
      cases hout : k.pc t with
      | out => exact absurd hout hpc
      | _ => rfl
    exact exists_code hin (not_putBusy hr hin hnil)
  · obtain ⟨rest, hrest⟩ := hk.shows
    by_cases hpart : ∃ t, (k.pc t).part ≠ none
    · obtain ⟨t, ht⟩ := hpart
      obtain ⟨⟨c, n⟩, hcn⟩ := Option.ne_none_iff_exists'.1 ht
      refine ⟨c, n, ?_, ?_, ?_⟩
      · have hat := hk.position t
        cases hpc : k.pc t with
        | fault v =>
            rw [hpc] at hat hcn
            cases hcn
            exact hat.1.fresh
        | put v request =>
            rw [hpc] at hat hcn
            cases hcn
            exact hat.1.fresh
        | _ =>
            rw [hpc] at hcn
            cases hcn
      · rw [hrest.log, hrest.part t c n hcn]
      · intro hall
        rw [hall t] at hcn
        cases hcn
    · have hnone : ∀ t, (k.pc t).part = none := by
        intro t
        by_contra hne
        exact hpart ⟨t, hne⟩
      obtain ⟨c, hc⟩ := Infinite.exists_notMem_finset (k.data.returned.map Prod.fst).toFinset
      refine ⟨c, 0, by simpa using hc, ?_, fun _ => rfl⟩
      rw [hrest.log, hrest.quiet hnone, List.take_zero]

/-- Two bytes before the end of its memory a process asks for 10000 bytes. The page of the first one
is not resident. Then it calls `Write2` behind its memory. -/
def writeTooLarge : List (Label Act) :=
  Label.act (Act.write2 126 10000 1) :: List.replicate 4 Label.go ++
    Label.act (Act.fault .oneTick) :: List.replicate 2 Label.go ++
    Label.act Act.readMem :: .interrupt (.written 0) :: List.replicate 6 Label.go ++
      Label.act Act.readMem :: .interrupt (.written 1) :: List.replicate 6 Label.go ++
        Label.act Act.readMem :: List.replicate 3 Label.go ++ [Label.act (Act.write2 128 10000 1)]

theorem console_output_exact_tooLarge :
    ∃ k, runFrom (step client)
        (init .out (Data.new fun _ => ⟨1, fun addr => addr.setWidth 8⟩)
          (Function.update (fun _ => 0) writeDone 0)) writeTooLarge = .ok k ∧
      k.data.returned = [(0, 2), (1, -1)] ∧ k.data.log = [(0, 126), (0, 127)] ∧
        ∀ r ∈ k.data.returned, ∃ w, k.data.calls[r.1]? = some w ∧ r.2 = w.value := by
  have hpass : passes (step client)
      (init .out (Data.new fun _ => ⟨1, fun addr => addr.setWidth 8⟩)
        (Function.update (fun _ => 0) writeDone 0)) writeTooLarge
      (fun k => k.data.returned = [(0, 2), (1, -1)] && k.data.log =
        [(0, 126), (0, 127)]) = true := by
    decide +kernel
  obtain ⟨k, hk, hend⟩ := runFrom_of_passes hpass
  rw [Bool.and_eq_true, decide_eq_true_eq, decide_eq_true_eq] at hend
  exact ⟨k, hk, hend.1, hend.2,
    (console_output_exact _ _ _ k hk (by simp [writeTooLarge, List.replicate])).2.2.1⟩

end ConsoleOutput

end Nachos
