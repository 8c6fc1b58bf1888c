import Nachos.Lib.Places
import Nachos.Threads.Section
import Nachos.Userprog.ConsoleOutput
import Nachos.Userprog.Pipe

/-!
# Reading from a pipe

`Read2` of `exception.cc` for a process with an input pipe, as a program over the kernel: threads
call `Read2`, whose loop calls `Pipe::Read`, and the thread of the process that has the output end
calls `Pipe::Write`, in any order. The output end is given to a process by `Exec2`, before the
reading process is made or at any time after it, and is given up by `SysCallExit`.

`results` are the values that `Pipe::Read` has returned in a call of `Read2` and `stores` are the
bytes that the call has stored. `Pipe::Read` does not wait as long as no process has the output end,
and the loop of `Read2` goes on with the next byte of the buffer when `Pipe::Read` has come back
without one.
-/

namespace Nachos

open Lib

namespace PipedRead

open ConsoleOutput (Space)
open Pipe (bufferLock bufferCV endOfPipe)

def PIPE_SIZE : ℤ := 128

/-- The variables of `Read2`, the memory of the caller before the call and what the call has done.
-/
structure Local where
  buffer : BitVec 32
  size : BitVec 32
  i : ℕ
  count : ℕ
  before : BitVec 32 → Byte
  results : List ℤ
  stores : List (BitVec 32 × Byte)

namespace Local

/-- `buffer + i`. -/
def addr (v : Local) : BitVec 32 := v.buffer + BitVec.ofNat 32 v.i

/-- `i++`. -/
def next (v : Local) : Local := { v with i := v.i + 1 }

/-- `Pipe::Read` returns `ch`. -/
def read (v : Local) (ch : ℤ) : Local := { v with results := v.results ++ [ch] }

/-- `WriteMem` has stored the byte, and `count++`. -/
def wrote (v : Local) (ch : ℤ) : Local :=
  { v with
    stores := v.stores ++ [(v.addr, BitVec.ofInt 8 ch)]
    count := v.count + 1 }

end Local

/-- Where a thread is in `Read2` and `Pipe::Write`. -/
inductive Pc where
  | out
  /-- The loop test of `Pipe::Read`. -/
  | readTest (v : Local)
  /-- `Pipe::Read` before its last `Release`. -/
  | readLeave (v : Local) (ch : ℤ)
  /-- `Pipe::Read` has returned `ch`. -/
  | took (v : Local) (ch : ℤ)
  /-- The first `WriteMem` has raised an exception. -/
  | fault (v : Local) (ch : ℤ)
  /-- The loop test of `Pipe::Write`. -/
  | writeTest (ch : Byte)
  /-- `Pipe::Write` before its last `Release`. -/
  | writeLeave

/-- A call of `Read2` that has returned, with the memory of the caller before and after it. -/
structure Returned where
  buffer : BitVec 32
  value : ℤ
  results : List ℤ
  stores : List (BitVec 32 × Byte)
  before : BitVec 32 → Byte
  after : BitVec 32 → Byte

structure Data where
  pipe : Pipe.Data
  /-- The thread of the process that has the output end. -/
  writer : Option Tid
  /-- `freePipe` is this pipe. -/
  pending : Bool
  space : Tid → Space
  returned : List Returned

/-- The pipe that `Exec2` gives to the reading process: that of the process `writer`, or a new one.
-/
def Data.new (buffer : ℤ → Byte) (writer : Option Tid) (space : Tid → Space) : Data where
  pipe :=
    { Pipe.Data.new PIPE_SIZE buffer with
      inOpen := 1
      outOpen := if writer = none then 0 else 1 }
  writer := writer
  pending := writer = none
  space := space
  returned := []

/-- The call does not touch the pipe. -/
def foreign : Call Pc → Bool
  | .acquire l => l ≠ bufferLock
  | .release l => l ≠ bufferLock
  | .wait c l => c ≠ bufferCV ∧ l ≠ bufferLock
  | .signal c _ => c ≠ bufferCV
  | .broadcast c _ => c ≠ bufferCV
  | .fork _ _ .out => true
  | .fork _ _ _ => false
  | _ => true

/-- What a thread does next, and what a handler does. -/
inductive Act where
  | read2 (buffer size : BitVec 32) (id : ℤ)
  /-- `Write2` calls `Pipe::Write`. -/
  | write (ch : Byte)
  /-- `Exec2` gives the output end to the process of the thread `writer`, and goes on to a call `o`.
  -/
  | connect (writer : Tid) (o : Call Pc)
  /-- `SysCallExit` of the process that has the output end. -/
  | exit (o : Call Pc)
  | setInOpen (value : ℤ) (o : Call Pc)
  /-- The program goes on, up to a call `o`, and leaves its memory as `space`. -/
  | other (o : Call Pc) (space : Space)
  /-- `WriteMem` returns `TRUE`. -/
  | writeMem
  /-- `WriteMem` raises an exception, and its handler goes on to a call `o`. -/
  | fault (o : Call Pc)
  /-- The second `WriteMem` returns `FALSE`. -/
  | failed
  | handle (sems : List ℕ)

/-- `Read2` returns `value`. -/
def finish (t : Tid) (v : Local) (d : Data) (value : ℤ) : Call Pc × Pc × Data :=
  (.oneTick, .out,
    { d with
      returned := d.returned ++
        [⟨v.buffer, value, v.results, v.stores, v.before, (d.space t).bytes⟩] })

/-- The loop of `Read2` from its test on. -/
def loop (t : Tid) (v : Local) (d : Data) : Call Pc × Pc × Data :=
  if (v.i : ℤ) < v.size.toInt then
    if (d.space t).size ≤ v.addr then
      finish t v d v.count
    else
      (.acquire bufferLock, .readTest v, d)
  else
    finish t v d v.count

/-- `Pipe::Read` after its `Acquire`. -/
def readLoop (v : Local) (d : Data) : Call Pc × Pc × Data :=
  if d.pipe.size = 0 then
    if d.pipe.outOpen = 0 then
      (.release bufferLock, .took (v.read endOfPipe) endOfPipe,
        { d with pipe := { d.pipe with reads := d.pipe.reads ++ [endOfPipe] } })
    else
      (.wait bufferCV bufferLock, .readTest v, d)
  else
    let start := if d.pipe.start = d.pipe.capacity then 0 else d.pipe.start
    let retVal := (d.pipe.buffer start).toInt
    (.broadcast bufferCV bufferLock, .readLeave (v.read retVal) retVal,
      { d with pipe := d.pipe.take })

/-- `Pipe::Write` after its `Acquire`. -/
def writeLoop (ch : Byte) (d : Data) : Call Pc × Pc × Data :=
  if d.pipe.size = d.pipe.capacity then
    if d.pipe.inOpen = 0 then
      (.release bufferLock, .out,
        { d with pipe := { d.pipe with writes := d.pipe.writes ++ [(ch, 0)] } })
    else
      (.wait bufferCV bufferLock, .writeTest ch, d)
  else
    (.broadcast bufferCV bufferLock, .writeLeave, { d with pipe := d.pipe.put ch })

/-- The byte `ch` goes to `buffer + i`. -/
def Data.store (d : Data) (t : Tid) (v : Local) (ch : ℤ) : Data :=
  { d with
    space := Function.update d.space t
      { d.space t with
        bytes := Function.update (d.space t).bytes v.addr (BitVec.ofInt 8 ch) } }

/-- The first `WriteMem`, and the rest of the loop body if it returns `TRUE`. -/
def writeMem (t : Tid) (v : Local) (ch : ℤ) (d : Data) : Act → Option (Call Pc × Pc × Data)
  | .writeMem => some (loop t (v.wrote ch).next (d.store t v ch))
  | .fault o => if foreign o then some (o, .fault v ch, d) else none
  | _ => none

/-- The second `WriteMem`. -/
def writeAgain (t : Tid) (v : Local) (ch : ℤ) (d : Data) : Act → Option (Call Pc × Pc × Data)
  | .failed => some (finish t v d (-1))
  | a => writeMem t v ch d a

/-- What a thread outside `Read2` and `Pipe::Write` does next. -/
def outside (t : Tid) (d : Data) : Act → Option (Call Pc × Pc × Data)
  | .read2 buffer size id =>
      let v : Local := ⟨buffer, size, 0, 0, (d.space t).bytes, [], []⟩
      if id ≠ 0 then
        some (finish t v d (-1))
      else if (d.space t).size ≤ buffer then
        some (finish t v d (-1))
      else
        some (loop t v d)
  | .write ch => if d.writer = some t then some (.acquire bufferLock, .writeTest ch, d) else none
  | .connect writer o =>
      if d.pending ∧ foreign o then
        some (o, .out,
          { d with
            writer := some writer
            pending := false
            pipe := { d.pipe with outOpen := 1 } })
      else
        none
  | .exit o =>
      if d.writer = some t ∧ foreign o then
        some (o, .out, { d with writer := none, pipe := { d.pipe with outOpen := 0 } })
      else
        none
  | .setInOpen value o =>
      if foreign o then some (o, .out, { d with pipe := { d.pipe with inOpen := value } }) else none
  | .other o space =>
      if foreign o then
        some (o, .out, { d with space := Function.update d.space t space })
      else
        none
  | _ => none

/-- The own code of the thread `t` up to its next call. -/
def next (t : Tid) (pc : Pc) (d : Data) (a : Act) : Option (Call Pc × Pc × Data) :=
  match pc with
  | .out => outside t d a
  | .readTest v => some (readLoop v d)
  | .readLeave v ch => some (.release bufferLock, .took v ch, d)
  | .took v ch => if ch ≠ endOfPipe then writeMem t v ch d a else some (loop t v.next d)
  | .fault v ch => writeAgain t v ch d a
  | .writeTest ch => some (writeLoop ch d)
  | .writeLeave => some (.release bufferLock, .out, d)

/-- The program of the processes at the two ends of the pipe. -/
def client : Client Pc Data Act where
  next t pc d _ a := next t pc d a
  handler a d :=
    match a with
    | .handle sems => some (sems, d)
    | _ => none

/-- What `Pipe::Read` does to the pipe. -/
theorem readLoop_pipe (v : Local) (d : Data) :
    (readLoop v d).2.2.pipe = (Pipe.readLoop d.pipe).2.2 := by
  unfold readLoop Pipe.readLoop
  split
  · split <;> rfl
  · rfl

/-- What `Pipe::Write` does to the pipe. -/
theorem writeLoop_pipe (ch : Byte) (d : Data) :
    (writeLoop ch d).2.2.pipe = (Pipe.writeLoop ch d.pipe).2.2 := by
  unfold writeLoop Pipe.writeLoop
  split
  · split <;> rfl
  · rfl

/-! ## Where the bytes go -/

/-- `Pipe::Read` has returned a byte. -/
def isByte (ch : ℤ) : Bool := ch ≠ endOfPipe

/-- `buffer + j`. -/
def place (buffer : BitVec 32) (j : ℕ) : BitVec 32 := buffer + BitVec.ofNat 32 j

/-- The end of the pipe is not followed by a byte. -/
def Lasting (results : List ℤ) : Prop :=
  results.Pairwise fun a b => isByte b = true → isByte a = true

namespace Returned

/-- The values of the bytes that the call has taken from the pipe. -/
def taken (r : Returned) : List ℤ := r.results.filter isByte

/-- The bytes that the call has taken are stored in order from the buffer on, and nothing else is.
-/
structure InPlace (r : Returned) : Prop where
  value : r.value = r.taken.length
  stores : r.stores = r.taken.mapIdx fun j ch => (place r.buffer j, BitVec.ofInt 8 ch)
  bytes : ∀ j ch, r.taken[j]? = some ch → r.after (place r.buffer j) = BitVec.ofInt 8 ch
  others : ∀ addr, (∀ j < r.taken.length, addr ≠ place r.buffer j) → r.after addr = r.before addr

/-- What holds of a call in any case: every byte is stored in the place of the result. -/
structure Sound (r : Returned) : Prop where
  value : r.value = r.taken.length
  stores : r.stores = inPlaces (place r.buffer) (BitVec.ofInt 8) isByte 0 r.results
  after : r.after = stored r.stores r.before
  length : r.results.length ≤ 2 ^ 31

end Returned

theorem place_injOn (buffer : BitVec 32) : Set.InjOn (place buffer) (Set.Iio (2 ^ 32)) := by
  intro i hi j hj h
  have hnat := congrArg BitVec.toNat ((BitVec.add_right_inj buffer).1 h)
  rwa [BitVec.toNat_ofNat, BitVec.toNat_ofNat, Nat.mod_eq_of_lt hi, Nat.mod_eq_of_lt hj] at hnat

variable {r : Returned}

/-- The addresses of the consecutive bytes are different ones. -/
theorem nodup_places {buffer : BitVec 32} {cs : List ℤ} (h : cs.length ≤ 2 ^ 32) :
    ((cs.mapIdx fun j ch => (place buffer j, BitVec.ofInt 8 ch)).map Prod.fst).Nodup := by
  have hplaces : (cs.mapIdx fun j ch => (place buffer j, BitVec.ofInt 8 ch)).map Prod.fst =
      (List.range cs.length).map (place buffer) := by
    refine List.ext_getElem (by simp) fun j hj hj' => ?_
    simp
  rw [hplaces]
  refine List.Nodup.map_on ?_ List.nodup_range
  intro i hi j hj heq
  rw [List.mem_range] at hi hj
  exact place_injOn buffer (Set.mem_Iio.2 (by omega)) (Set.mem_Iio.2 (by omega)) heq

/-- The bytes are in place exactly when the end of the pipe has been the end. -/
theorem Returned.Sound.inPlace_iff (h : r.Sound) : r.InPlace ↔ Lasting r.results := by
  have hlength := h.length
  have hiff := @inPlaces_eq_mapIdx_iff _ _ _ (place r.buffer) (BitVec.ofInt 8) isByte (2 ^ 32) 0 0
    r.results (place_injOn r.buffer) le_rfl (by omega)
  simp only [Nat.zero_add] at hiff
  constructor
  · intro hin
    exact (hiff.1 (h.stores.symm.trans hin.stores)).2
  · intro hlasting
    have hstores : r.stores = r.taken.mapIdx fun j ch => (place r.buffer j, BitVec.ofInt 8 ch) :=
      h.stores.trans (hiff.2 ⟨by simp, hlasting⟩)
    have htaken : r.taken.length ≤ 2 ^ 32 := by
      have hfilter : r.taken.length ≤ r.results.length := List.length_filter_le ..
      omega
    refine ⟨h.value, hstores, ?_, ?_⟩
    · intro j ch hj
      rw [h.after, hstores]
      refine stored_of_mem (s := (place r.buffer j, BitVec.ofInt 8 ch)) _ (nodup_places htaken) ?_
      rw [List.mem_mapIdx]
      obtain ⟨hlt, hget⟩ := List.getElem?_eq_some_iff.1 hj
      exact ⟨j, hlt, by rw [hget]⟩
    · intro addr hne
      rw [h.after, hstores]
      refine stored_of_notMem _ ?_
      simp only [List.mem_map, List.mem_mapIdx]
      rintro ⟨-, ⟨j, hj, rfl⟩, rfl⟩
      exact hne j hj rfl

/-! ## The calls in progress -/

/-- The call has dealt with the results `rs`. -/
structure Good (bytes : BitVec 32 → Byte) (v : Local) (rs : List ℤ) : Prop where
  index : v.i = rs.length
  count : v.count = (rs.filter isByte).length
  stores : v.stores = inPlaces (place v.buffer) (BitVec.ofInt 8) isByte 0 rs
  bytes : bytes = stored v.stores v.before
  length : rs.length ≤ 2 ^ 31

/-- The call is in its loop body, with the result `ch`. -/
structure Body (bytes : BitVec 32 → Byte) (v : Local) (ch : ℤ) : Prop where
  good : ∃ rs, v.results = rs ++ [ch] ∧ Good bytes v rs
  test : (v.i : ℤ) < v.size.toInt

def Pc.At (bytes : BitVec 32 → Byte) : Pc → Prop
  | .readTest v => Good bytes v v.results ∧ (v.i : ℤ) < v.size.toInt
  | .readLeave v ch => Body bytes v ch
  | .took v ch => Body bytes v ch
  | .fault v ch => Body bytes v ch ∧ isByte ch = true
  | _ => True

structure Sound (pcs : Tid → Pc) (d : Data) : Prop where
  position : ∀ t, (pcs t).At (d.space t).bytes
  returned : ∀ r ∈ d.returned, 0 ≤ r.value → r.Sound

variable {t : Tid} {pc pc' : Pc} {pcs : Tid → Pc} {d d' : Data} {a : Act} {o : Call Pc} {v : Local}
  {ch : ℤ} {bytes : BitVec 32 → Byte} {rs : List ℤ}

/-- The end of the pipe leaves the memory alone. -/
theorem Body.ends (h : Body bytes v endOfPipe) : Good bytes v.next v.next.results := by
  obtain ⟨⟨rs, hrs, hgood⟩, htest⟩ := h
  have hsize := v.size.toInt_lt
  have hindex := hgood.index
  have hlength : (rs ++ [endOfPipe]).length ≤ 2 ^ 31 := by
    rw [List.length_append, List.length_singleton]
    omega
  rw [show v.next.results = rs ++ [endOfPipe] from hrs]
  refine ⟨?_, ?_, ?_, hgood.bytes, hlength⟩
  · rw [List.length_append, List.length_singleton, ← hindex]
    rfl
  · rw [List.filter_append]
    simpa [isByte, Local.next] using hgood.count
  · rw [inPlaces_concat]
    simpa [isByte, Local.next] using hgood.stores

theorem Body.stores (h : Body bytes v ch) (hch : isByte ch = true) :
    Good (Function.update bytes v.addr (BitVec.ofInt 8 ch)) (v.wrote ch).next
      (v.wrote ch).next.results := by
  obtain ⟨⟨rs, hrs, hgood⟩, htest⟩ := h
  have hsize := v.size.toInt_lt
  have hindex := hgood.index
  have hlength : (rs ++ [ch]).length ≤ 2 ^ 31 := by
    rw [List.length_append, List.length_singleton]
    omega
  have haddr : v.addr = place v.buffer (0 + rs.length) := by
    rw [Nat.zero_add, ← hindex]
    rfl
  rw [show (v.wrote ch).next.results = rs ++ [ch] from hrs]
  refine ⟨?_, ?_, ?_, ?_, hlength⟩
  · rw [List.length_append, List.length_singleton, ← hindex]
    rfl
  · rw [List.filter_append, List.length_append, ← hgood.count]
    simp [hch, Local.wrote, Local.next]
  · rw [inPlaces_concat, if_pos hch, show (v.wrote ch).next.buffer = v.buffer from rfl,
      ← hgood.stores,
      ← haddr]
    rfl
  · rw [show (v.wrote ch).next.stores = v.stores ++ [(v.addr, BitVec.ofInt 8 ch)] from rfl,
      stored_concat, hgood.bytes]
    rfl

/-! ## Moves -/

/-- The loop of `Read2` ends, or goes on with a call of `Pipe::Read`. -/
inductive Loops (t : Tid) (v : Local) (d : Data) : Call Pc → Pc → Data → Prop
  | ends : Loops t v d .oneTick .out (finish t v d v.count).2.2
  | test (h : (v.i : ℤ) < v.size.toInt) : Loops t v d (.acquire bufferLock) (.readTest v) d

/-- `WriteMem` is called for the byte `ch`, the first time or the second. -/
inductive Writes (v : Local) (ch : ℤ) : Pc → Prop
  | first (h : isByte ch = true) : Writes v ch (.took v ch)
  | second : Writes v ch (.fault v ch)

/-- The variables of `Read2` before its loop. -/
def Local.new (buffer size : BitVec 32) (before : BitVec 32 → Byte) : Local :=
  ⟨buffer, size, 0, 0, before, [], []⟩

/-- What the own code of the thread `t` does up to its next call. -/
inductive Move (t : Tid) (d : Data) : Pc → Act → Call Pc → Pc → Data → Prop
  | refuse (a : Act) (buffer size : BitVec 32) :
      Move t d .out a .oneTick .out (finish t (.new buffer size (d.space t).bytes) d (-1)).2.2
  | call (a : Act) (buffer size : BitVec 32) (o : Call Pc) (pc' : Pc) (d' : Data)
      (h : Loops t (.new buffer size (d.space t).bytes) d o pc' d') : Move t d .out a o pc' d'
  | write (a : Act) (ch : Byte) (h : d.writer = some t) :
      Move t d .out a (.acquire bufferLock) (.writeTest ch) d
  | connect (writer : Tid) (o : Call Pc) (hpending : d.pending = true) (ho : foreign o = true) :
      Move t d .out (.connect writer o) o .out
        { d with
          writer := some writer
          pending := false
          pipe := { d.pipe with outOpen := 1 } }
  | exit (a : Act) (h : d.writer = some t) (o : Call Pc) (ho : foreign o = true) :
      Move t d .out a o .out { d with writer := none, pipe := { d.pipe with outOpen := 0 } }
  | setInOpen (a : Act) (value : ℤ) (o : Call Pc) (ho : foreign o = true) :
      Move t d .out a o .out { d with pipe := { d.pipe with inOpen := value } }
  | other (a : Act) (o : Call Pc) (ho : foreign o = true) (space : Space) :
      Move t d .out a o .out { d with space := Function.update d.space t space }
  | readEnd (a : Act) (v : Local) (hsize : d.pipe.size = 0) (hopen : d.pipe.outOpen = 0) :
      Move t d (.readTest v) a (.release bufferLock) (.took (v.read endOfPipe) endOfPipe)
        { d with pipe := { d.pipe with reads := d.pipe.reads ++ [endOfPipe] } }
  | readSleep (a : Act) (v : Local) : Move t d (.readTest v) a (.wait bufferCV bufferLock)
      (.readTest v) d
  | take (a : Act) (v : Local) (hsize : d.pipe.size ≠ 0) (ch : ℤ) (hch : isByte ch = true) :
      Move t d (.readTest v) a (.broadcast bufferCV bufferLock) (.readLeave (v.read ch) ch)
        { d with pipe := d.pipe.take }
  | readLeave (a : Act) (v : Local) (ch : ℤ) :
      Move t d (.readLeave v ch) a (.release bufferLock) (.took v ch) d
  | store (a : Act) (pc : Pc) (v : Local) (ch : ℤ) (hpc : Writes v ch pc) (o : Call Pc) (pc' : Pc)
      (d' : Data) (h : Loops t (v.wrote ch).next (d.store t v ch) o pc' d') : Move t d pc a o pc' d'
  | fault (a : Act) (pc : Pc) (v : Local) (ch : ℤ) (hpc : Writes v ch pc) (o : Call Pc)
      (ho : foreign o = true) : Move t d pc a o (.fault v ch) d
  | failed (a : Act) (v : Local) (ch : ℤ) :
      Move t d (.fault v ch) a .oneTick .out (finish t v d (-1)).2.2
  | ends (a : Act) (v : Local) (o : Call Pc) (pc' : Pc) (d' : Data)
      (h : Loops t v.next d o pc' d') :
      Move t d (.took v endOfPipe) a o pc' d'
  | writeEnd (a : Act) (ch : Byte) :
      Move t d (.writeTest ch) a (.release bufferLock) .out
        { d with pipe := { d.pipe with writes := d.pipe.writes ++ [(ch, 0)] } }
  | writeSleep (a : Act) (ch : Byte) :
      Move t d (.writeTest ch) a (.wait bufferCV bufferLock) (.writeTest ch) d
  | put (a : Act) (ch : Byte) :
      Move t d (.writeTest ch) a (.broadcast bufferCV bufferLock) .writeLeave
        { d with pipe := d.pipe.put ch }
  | writeLeave (a : Act) : Move t d .writeLeave a (.release bufferLock) .out d

theorem loops_of_eq (h : loop t v d = (o, pc', d')) : Loops t v d o pc' d' := by
  unfold loop at h
  split at h
  · rename_i htest
    split at h
    · cases h
      exact .ends
    · cases h
      exact .test htest
  · cases h
    exact .ends

theorem move_of_writeMem (hpc : Writes v ch pc) (h : writeMem t v ch d a = some (o, pc', d')) :
    Move t d pc a o pc' d' := by
  cases a with
  | writeMem => exact .store _ pc v ch hpc o pc' d' (loops_of_eq (Option.some.inj h))
  | fault o' =>
      simp only [writeMem] at h
      split at h
      · rename_i ho
        cases h
        exact .fault _ pc v ch hpc _ ho
      · cases h
  | _ => cases h

theorem move_of_writeAgain (h : writeAgain t v ch d a = some (o, pc', d')) :
    Move t d (.fault v ch) a o pc' d' := by
  cases a with
  | failed =>
      cases h
      exact .failed _ v ch
  | _ => exact move_of_writeMem .second h

theorem move_of_outside (h : outside t d a = some (o, pc', d')) : Move t d .out a o pc' d' := by
  cases a with
  | read2 buffer size id =>
      simp only [outside] at h
      split at h
      · cases h
        exact .refuse _ buffer size
      · split at h
        · cases h
          exact .refuse _ buffer size
        · exact .call _ buffer size o pc' d' (loops_of_eq (Option.some.inj h))
  | write ch =>
      simp only [outside] at h
      split at h
      · rename_i hwriter
        cases h
        exact .write _ ch hwriter
      · cases h
  | connect writer o' =>
      simp only [outside] at h
      split at h
      · rename_i hpending
        cases h
        exact .connect writer _ hpending.1 hpending.2
      · cases h
  | exit o' =>
      simp only [outside] at h
      split at h
      · rename_i hwriter
        cases h
        exact .exit _ hwriter.1 _ hwriter.2
      · cases h
  | setInOpen value o' =>
      simp only [outside] at h
      split at h
      · rename_i ho
        cases h
        exact .setInOpen _ value _ ho
      · cases h
  | other o' space =>
      simp only [outside] at h
      split at h
      · rename_i ho
        cases h
        exact .other _ _ ho space
      · cases h
  | _ => cases h

theorem isByte_toInt (b : Byte) : isByte b.toInt = true := by
  simpa [isByte] using Pipe.byte_ne b

theorem move_of_next (h : next t pc d a = some (o, pc', d')) : Move t d pc a o pc' d' := by
  cases pc with
  | out => exact move_of_outside h
  | readTest v =>
      simp only [next, readLoop] at h
      split at h
      · rename_i hsize
        split at h
        · rename_i hopen
          cases h
          exact .readEnd a v hsize hopen
        · cases h
          exact .readSleep a v
      · rename_i hsize
        cases h
        exact .take a v hsize _ (isByte_toInt _)
  | readLeave v ch =>
      cases h
      exact .readLeave a v ch
  | took v ch =>
      simp only [next] at h
      split at h
      · rename_i hch
        exact move_of_writeMem (.first (by simpa [isByte] using hch)) h
      · rename_i hch
        obtain rfl : ch = endOfPipe := not_not.1 hch
        exact .ends a v o pc' d' (loops_of_eq (Option.some.inj h))
  | fault v ch => exact move_of_writeAgain h
  | writeTest ch =>
      simp only [next, writeLoop] at h
      split at h
      · split at h
        · cases h
          exact .writeEnd a ch
        · cases h
          exact .writeSleep a ch
      · cases h
        exact .put a ch
  | writeLeave =>
      cases h
      exact .writeLeave a

/-! ## The stores of a call -/

/-- What a call that goes on or returns leaves for the others. -/
structure Local.Leaves (t : Tid) (d : Data) (pc' : Pc) (d' : Data) : Prop where
  position : pc'.At (d'.space t).bytes
  space : ∀ u, u ≠ t → d'.space u = d.space u
  returned : ∀ r ∈ d'.returned, r ∈ d.returned ∨ (0 ≤ r.value → r.Sound)

theorem Good.loops (h : Good (d.space t).bytes v v.results) (hloops : Loops t v d o pc' d') :
    Local.Leaves t d pc' d' := by
  cases hloops with
  | ends =>
      refine ⟨trivial, fun _ _ => rfl, ?_⟩
      intro r hr
      refine (List.mem_append.1 hr).imp_right fun hlast _ => ?_
      obtain rfl := List.mem_singleton.1 hlast
      exact ⟨congrArg _ h.count, h.stores, h.bytes, h.length⟩
  | test htest => exact ⟨⟨h, htest⟩, fun _ _ => rfl, fun r hr => .inl hr⟩

/-- A call that returns -1. -/
theorem leaves_failed : Local.Leaves t d .out (finish t v d (-1)).2.2 := by
  refine ⟨trivial, fun _ _ => rfl, ?_⟩
  intro r hr
  refine (List.mem_append.1 hr).imp_right fun hlast hnonneg => ?_
  obtain rfl := List.mem_singleton.1 hlast
  exact absurd (show (0 : ℤ) ≤ -1 from hnonneg) (by decide)

theorem Local.Leaves.stay (hposition : pc'.At (d'.space t).bytes)
    (hspace : ∀ u, u ≠ t → d'.space u = d.space u) (hreturned : d'.returned = d.returned) :
    Local.Leaves t d pc' d' :=
  ⟨hposition, hspace, fun _ hr => .inl (hreturned ▸ hr)⟩

theorem good_new (buffer size : BitVec 32) (bytes : BitVec 32 → Byte) :
    Good bytes (.new buffer size bytes) (Local.new buffer size bytes).results :=
  ⟨rfl, rfl, rfl, rfl, Nat.zero_le _⟩

theorem Writes.body (h : pc.At bytes) (hpc : Writes v ch pc) :
    Body bytes v ch ∧ isByte ch = true := by
  cases hpc with
  | first hch => exact ⟨h, hch⟩
  | second => exact h

/-- `Pipe::Read` has returned a value. -/
theorem Good.body (h : Good bytes v v.results) (htest : (v.i : ℤ) < v.size.toInt) :
    Body bytes (v.read ch) ch :=
  ⟨⟨v.results, rfl, h.index, h.count, h.stores, h.bytes, h.length⟩, htest⟩

theorem Sound.leaves (h : Sound pcs d) (hmove : Move t d (pcs t) a o pc' d') :
    Local.Leaves t d pc' d' := by
  have hat := h.position t
  generalize pcs t = pc at hmove hat
  cases hmove with
  | refuse a buffer size => exact leaves_failed
  | call a buffer size o pc' d' hloops => exact (good_new buffer size _).loops hloops
  | other a o ho space =>
      exact .stay trivial (fun u hut => Function.update_of_ne hut ..) rfl
  | readEnd a v hsize hopen => exact .stay (hat.1.body hat.2) (fun _ _ => rfl) rfl
  | readSleep a v => exact .stay hat (fun _ _ => rfl) rfl
  | take a v hsize ch hch => exact .stay (hat.1.body hat.2) (fun _ _ => rfl) rfl
  | readLeave a v ch => exact .stay hat (fun _ _ => rfl) rfl
  | store a pc v ch hpc o pc' d' hloops =>
      obtain ⟨hbody, hch⟩ := Writes.body hat hpc
      have hgood := hbody.stores hch
      have hbytes : ((d.store t v ch).space t).bytes =
          Function.update (d.space t).bytes v.addr (BitVec.ofInt 8 ch) := by
        simp [Data.store]
      rw [← hbytes] at hgood
      obtain ⟨hposition, hspace, hreturned⟩ := hgood.loops hloops
      refine ⟨hposition, fun u hut => (hspace u hut).trans ?_, hreturned⟩
      exact Function.update_of_ne hut ..
  | fault a pc v ch hpc o ho => exact .stay (Writes.body hat hpc) (fun _ _ => rfl) rfl
  | failed a v ch => exact leaves_failed
  | ends a v o pc' d' hloops => exact hat.ends.loops hloops
  | _ => exact .stay trivial (fun _ _ => rfl) rfl

theorem Sound.move (h : Sound pcs d) (hmove : Move t d (pcs t) a o pc' d') :
    Sound (Function.update pcs t pc') d' := by
  obtain ⟨hposition, hspace, hreturned⟩ := h.leaves hmove
  refine ⟨?_, ?_⟩
  · intro u
    by_cases hut : u = t
    · rw [hut, Function.update_self]
      exact hposition
    · rw [Function.update_of_ne hut, hspace u hut]
      exact h.position u
  · intro r hr hnonneg
    rcases hreturned r hr with hr | hr
    · exact h.returned r hr hnonneg
    · exact hr hnonneg

/-! ## The end of the pipe -/

def Pc.locals : Pc → Option Local
  | .readTest v => some v
  | .readLeave v _ => some v
  | .took v _ => some v
  | .fault v _ => some v
  | _ => none

/-- The thread is in a call that has got the end of the pipe. -/
def Pc.EndSeen (pc : Pc) : Prop := ∃ v, pc.locals = some v ∧ endOfPipe ∈ v.results

/-- Once a call has got the end of the pipe, nobody has the output end, and the pipe is empty. -/
structure Ended (pcs : Tid → Pc) (d : Data) : Prop where
  writing : ∀ t ch, pcs t = .writeTest ch → d.writer = some t
  opened : d.writer ≠ none → d.pipe.outOpen ≠ 0
  free : d.pending = true → d.writer = none
  ended : ∀ t, (pcs t).EndSeen → d.writer = none ∧ d.pipe.size = 0
  lasting : ∀ t v, (pcs t).locals = some v → Lasting v.results
  returned : ∀ r ∈ d.returned, Lasting r.results

/-- The results of the call that the thread is in, or of a new one. -/
def Pc.Has (pc : Pc) (rs : List ℤ) : Prop := rs = [] ∨ ∃ v, pc.locals = some v ∧ v.results = rs

theorem Pc.has (hpc : pc.locals = some v) : pc.Has v.results := .inr ⟨v, hpc, rfl⟩

theorem lasting_concat (h : Lasting rs) (hch : isByte ch = true → endOfPipe ∉ rs) :
    Lasting (rs ++ [ch]) := by
  refine List.pairwise_append.2 ⟨h, List.pairwise_singleton .., ?_⟩
  intro a ha b hb hbyte
  obtain rfl := List.mem_singleton.1 hb
  by_contra hend
  have hend : a = endOfPipe := by simpa [isByte] using hend
  exact hch hbyte (hend ▸ ha)

namespace Ended

theorem new (buffer : ℤ → Byte) (writer : Option Tid) (space : Tid → Space) :
    Ended (fun _ => .out) (Data.new buffer writer space) where
  writing := by simp
  opened := by
    intro hne
    simp [Data.new, show writer ≠ none from hne]
  free := by simp [Data.new]
  ended := by simp [Pc.EndSeen, Pc.locals]
  lasting := by simp [Pc.locals]
  returned := by simp [Data.new]

/-- The thread `t` goes on, and the output end stays where it is. -/
theorem goes (h : Ended pcs d) (hwriter : d'.writer = d.writer)
    (hopen : d'.pipe.outOpen = d.pipe.outOpen) (hpending : d'.pending = d.pending)
    (hwriting : ∀ ch, pc' = .writeTest ch → d.writer = some t)
    (hsize : d.writer = none → d.pipe.size = 0 → d'.pipe.size = 0)
    (hended : pc'.EndSeen → d.writer = none ∧ d.pipe.size = 0)
    (hlasting : ∀ v, pc'.locals = some v → Lasting v.results)
    (hreturned : ∀ r ∈ d'.returned, r ∈ d.returned ∨ (pcs t).Has r.results) :
    Ended (Function.update pcs t pc') d' := by
  refine ⟨?_, ?_, ?_, ?_, ?_, ?_⟩
  · intro u ch hu
    rw [hwriter]
    by_cases hut : u = t
    · rw [hut, Function.update_self] at hu
      rw [hut]
      exact hwriting ch hu
    · rw [Function.update_of_ne hut] at hu
      exact h.writing u ch hu
  · rw [hwriter, hopen]
    exact h.opened
  · rw [hwriter, hpending]
    exact h.free
  · intro u hu
    have hold : d.writer = none ∧ d.pipe.size = 0 := by
      by_cases hut : u = t
      · rw [hut, Function.update_self] at hu
        exact hended hu
      · rw [Function.update_of_ne hut] at hu
        exact h.ended u hu
    exact ⟨hwriter.trans hold.1, hsize hold.1 hold.2⟩
  · intro u v hu
    by_cases hut : u = t
    · rw [hut, Function.update_self] at hu
      exact hlasting v hu
    · rw [Function.update_of_ne hut] at hu
      exact h.lasting u v hu
  · intro r hr
    rcases hreturned r hr with hr | hnil | ⟨v, hv, hresults⟩
    · exact h.returned r hr
    · exact hnil ▸ .nil
    · exact hresults ▸ h.lasting t v hv

/-- The same, when `Pipe::Read` has not returned. -/
theorem carries (h : Ended pcs d) (hwriter : d'.writer = d.writer)
    (hopen : d'.pipe.outOpen = d.pipe.outOpen) (hpending : d'.pending = d.pending)
    (hwriting : ∀ ch, pc' = .writeTest ch → d.writer = some t)
    (hsize : d.writer = none → d.pipe.size = 0 → d'.pipe.size = 0)
    (hhas : ∀ v, pc'.locals = some v → (pcs t).Has v.results)
    (hreturned : ∀ r ∈ d'.returned, r ∈ d.returned ∨ (pcs t).Has r.results) :
    Ended (Function.update pcs t pc') d' := by
  refine h.goes hwriter hopen hpending hwriting hsize ?_ ?_ hreturned
  · rintro ⟨v, hv, hend⟩
    rcases hhas v hv with hnil | ⟨u, hu, hresults⟩
    · rw [hnil] at hend
      cases hend
    · exact h.ended t ⟨u, hu, hresults ▸ hend⟩
  · intro v hv
    rcases hhas v hv with hnil | ⟨u, hu, hresults⟩
    · exact hnil ▸ .nil
    · exact hresults ▸ h.lasting t u hu

/-- The call is to test its loop. -/
theorem loops (h : Ended pcs d) (d₀ : Data) (hhas : (pcs t).Has v.results)
    (hwriter : d₀.writer = d.writer) (hpipe : d₀.pipe = d.pipe) (hpending : d₀.pending = d.pending)
    (hreturned : d₀.returned = d.returned) (hloops : Loops t v d₀ o pc' d') :
    Ended (Function.update pcs t pc') d' := by
  cases hloops with
  | ends =>
      refine h.carries hwriter (congrArg _ hpipe) hpending (by simp)
        (fun _ hsize => (congrArg _ hpipe).trans hsize) (by simp [Pc.locals]) ?_
      intro r hr
      rw [← hreturned]
      refine (List.mem_append.1 hr).imp_right fun hlast => ?_
      obtain rfl := List.mem_singleton.1 hlast
      exact hhas
  | test htest =>
      refine h.carries hwriter (congrArg _ hpipe) hpending (by simp)
        (fun _ hsize => (congrArg _ hpipe).trans hsize) ?_ fun r hr => .inl (hreturned ▸ hr)
      rintro v ⟨⟩
      exact hhas

/-- A call returns -1. -/
theorem failed (h : Ended pcs d) (hhas : (pcs t).Has v.results) :
    Ended (Function.update pcs t .out) (finish t v d (-1)).2.2 := by
  refine h.carries rfl rfl rfl (by simp) (fun _ hsize => hsize) (by simp [Pc.locals]) ?_
  intro r hr
  refine (List.mem_append.1 hr).imp_right fun hlast => ?_
  obtain rfl := List.mem_singleton.1 hlast
  exact hhas

/-- The output end is given to a process. -/
theorem connect (h : Ended pcs d) (hpc : pcs t = .out) (hnobody : ∀ u, ¬(pcs u).EndSeen)
    (hpending : d.pending = true) (writer : Tid) :
    Ended (Function.update pcs t .out)
      { d with
        writer := some writer
        pending := false
        pipe := { d.pipe with outOpen := 1 } } := by
  rw [Function.update_eq_self_iff.2 hpc.symm]
  refine ⟨?_, by simp, by simp, fun u hu => absurd hu (hnobody u), h.lasting, h.returned⟩
  intro u ch hu
  have hwriter := h.writing u ch hu
  rw [h.free hpending] at hwriter
  cases hwriter

/-- The process that has the output end exits. -/
theorem exit (h : Ended pcs d) (hpc : pcs t = .out) (hwriter : d.writer = some t) :
    Ended (Function.update pcs t .out)
      { d with writer := none, pipe := { d.pipe with outOpen := 0 } } := by
  rw [Function.update_eq_self_iff.2 hpc.symm]
  refine ⟨?_, by simp, by simp, ?_, h.lasting, h.returned⟩
  · intro u ch hu
    obtain rfl := Option.some.inj (hwriter.symm.trans (h.writing u ch hu))
    rw [hpc] at hu
    cases hu
  · intro u hu
    exact ⟨rfl, (h.ended u hu).2⟩

/-- `Pipe::Read` finds a byte. -/
theorem take (h : Ended pcs d) (hpc : pcs t = .readTest v) (hsize : d.pipe.size ≠ 0)
    (hch : isByte ch = true) :
    Ended (Function.update pcs t (.readLeave (v.read ch) ch)) { d with pipe := d.pipe.take } := by
  have hnot : endOfPipe ∉ v.results := by
    intro hend
    exact hsize (h.ended t ⟨v, by rw [hpc]; rfl, hend⟩).2
  have hlasting : Lasting (v.results ++ [ch]) :=
    lasting_concat (h.lasting t v (by rw [hpc]; rfl)) fun _ => hnot
  refine h.goes rfl rfl rfl (by simp) (fun _ hzero => absurd hzero hsize) ?_ ?_ fun r hr => .inl hr
  · rintro ⟨w, ⟨⟩, hend⟩
    rcases List.mem_append.1 hend with hend | hend
    · exact absurd hend hnot
    · rw [← List.mem_singleton.1 hend] at hch
      cases hch
  · rintro w ⟨⟩
    exact hlasting

/-- `Pipe::Read` finds the end of the pipe. -/
theorem readEnd (h : Ended pcs d) (hpc : pcs t = .readTest v) (hsize : d.pipe.size = 0)
    (hopen : d.pipe.outOpen = 0) :
    Ended (Function.update pcs t (.took (v.read endOfPipe) endOfPipe))
      { d with pipe := { d.pipe with reads := d.pipe.reads ++ [endOfPipe] } } := by
  have hwriter : d.writer = none := by
    by_contra hne
    exact h.opened hne hopen
  refine h.goes rfl rfl rfl (by simp) (fun _ hzero => hzero) (fun _ => ⟨hwriter, hsize⟩) ?_
    fun r hr => .inl hr
  rintro w ⟨⟩
  exact lasting_concat (h.lasting t v (by rw [hpc]; rfl)) (by simp [isByte])

theorem move (h : Ended pcs d) (hmove : Move t d (pcs t) a o pc' d')
    (hconnect : ∀ writer o, a = .connect writer o → ∀ u, ¬(pcs u).EndSeen) :
    Ended (Function.update pcs t pc') d' := by
  have hsame : ∀ {r : Returned}, r ∈ d.returned → r ∈ d.returned ∨ (pcs t).Has r.results := .inl
  generalize hpc : pcs t = pc at hmove
  cases hmove with
  | refuse a buffer size => exact h.failed (.inl rfl)
  | call a buffer size o pc' d' hloops => exact h.loops d (.inl rfl) rfl rfl rfl rfl hloops
  | write a ch hwriter =>
      exact h.carries rfl rfl rfl (fun _ _ => hwriter) (fun _ hsize => hsize) (by simp [Pc.locals])
        fun _ => hsame
  | connect writer o hpending ho => exact h.connect hpc (hconnect writer o rfl) hpending writer
  | exit a hwriter o ho => exact h.exit hpc hwriter
  | readEnd a v hsize hopen => exact h.readEnd hpc hsize hopen
  | take a v hsize ch hch => exact h.take hpc hsize hch
  | readSleep a v =>
      refine h.carries rfl rfl rfl (by simp) (fun _ hsize => hsize) ?_ fun _ => hsame
      rintro w ⟨⟩
      exact hpc ▸ Pc.has rfl
  | readLeave a v ch =>
      refine h.carries rfl rfl rfl (by simp) (fun _ hsize => hsize) ?_ fun _ => hsame
      rintro w ⟨⟩
      exact hpc ▸ Pc.has rfl
  | store a pc v ch hwrites o pc' d' hloops =>
      have hhas : (pcs t).Has v.results := by
        rw [hpc]
        cases hwrites <;> exact Pc.has rfl
      exact h.loops (v := (v.wrote ch).next) (d.store t v ch) hhas rfl rfl rfl rfl hloops
  | fault a pc v ch hwrites o ho =>
      refine h.carries rfl rfl rfl (by simp) (fun _ hsize => hsize) ?_ fun _ => hsame
      rintro w ⟨⟩
      rw [hpc]
      cases hwrites <;> exact Pc.has rfl
  | failed a v ch => exact h.failed (hpc ▸ Pc.has rfl)
  | ends a v o pc' d' hloops =>
      have hhas : (pcs t).Has v.results := hpc ▸ Pc.has rfl
      exact h.loops (v := v.next) d hhas rfl rfl rfl rfl hloops
  | writeSleep a ch =>
      refine h.carries rfl rfl rfl ?_ (fun _ hsize => hsize) (by simp [Pc.locals]) fun _ => hsame
      intro _ _
      exact h.writing t ch hpc
  | put a ch =>
      refine h.carries rfl rfl rfl (by simp) ?_ (by simp [Pc.locals]) fun _ => hsame
      intro hnone
      rw [h.writing t ch hpc] at hnone
      cases hnone
  | _ =>
      exact h.carries rfl rfl rfl (by simp) (fun _ hsize => hsize) (by simp [Pc.locals])
        fun _ => hsame

end Ended

theorem start_of_fork {view : View} {c : Tid} {join : ℤ} {start : Pc}
    (h : client.next t pc d view a = some (.fork c join start, pc', d')) : start = .out := by
  have hforeign : ∀ {o : Call Pc}, foreign o = true → o = .fork c join start → start = .out := by
    rintro o hforeign rfl
    cases start with
    | out => rfl
    | _ => cases hforeign
  have hloops : ∀ {v d₀ o}, Loops t v d₀ o pc' d' → o ≠ .fork c join start := by
    rintro v d₀ o hloops rfl
    cases hloops
  generalize ho : Call.fork c join start = o at h
  cases move_of_next h with
  | call a buffer size o pc' d' h => exact absurd ho.symm (hloops h)
  | connect writer o hpending hf => exact hforeign hf ho.symm
  | exit a hwriter o hf => exact hforeign hf ho.symm
  | setInOpen a value o hf => exact hforeign hf ho.symm
  | other a o hf space => exact hforeign hf ho.symm
  | store a pc v ch hpc o pc' d' h => exact absurd ho.symm (hloops h)
  | fault a pc v ch hpc o hf => exact hforeign hf ho.symm
  | ends a v o pc' d' h => exact absurd ho.symm (hloops h)
  | _ => cases ho

open Kernel

variable {k : Kernel Pc Data} {buffer : ℤ → Byte} {writer : Option Tid} {space : Tid → Space}
  {initialValue : ℕ → ℤ}

theorem data_of_handler {sems : List ℕ} (h : client.handler a d = some (sems, d')) : d' = d := by
  cases a with
  | handle sems' =>
      cases h
      rfl
  | _ => cases h

theorem runs_sound (hr : Runs client .out (Data.new buffer writer space) initialValue k) :
    Sound k.pc k.data := by
  refine hr.program_invariant (I := Sound) start_of_fork
    ⟨fun _ => trivial, by simp [Data.new]⟩ ?_ ?_
  · intro k a o pc d hr hi hnil hnext
    exact hi.move (move_of_next hnext)
  · intro k a sems d hr hi hhandler
    exact data_of_handler hhandler ▸ hi

/-- The output end is not given to a process while a call of `Read2` goes on that has got the end of
the pipe. -/
def ConnectsInTime (k : Kernel Pc Data) (lab : Label Act) : Prop :=
  ∀ writer o, lab = .act (.connect writer o) → ∀ u, ¬(k.pc u).EndSeen

theorem runs_ended {labs : List (Label Act)}
    (h : runFrom (step client) (init .out (Data.new buffer writer space) initialValue) labs = .ok k)
    (hmeets : Meets (step client) ConnectsInTime
      (init .out (Data.new buffer writer space) initialValue) labs) : Ended k.pc k.data := by
  refine Runs.program_invariant_of_meets (I := Ended) start_of_fork (.new buffer writer space) ?_ ?_
    hmeets h
  · intro k a o pc d hr hp hi hnil hnext
    exact hi.move (move_of_next hnext) fun writer o ha => hp writer o (congrArg _ ha)
  · intro k a sems d hr hi hhandler
    exact data_of_handler hhandler ▸ hi

/-- A call of `Read2` that returns without an error has its bytes in order from the buffer on, and
has stored nothing else, if and only if `Pipe::Read` has given it no byte after the end of the pipe.
So it is with every call of a run in which the output end is given to a process before a call in
progress has got the end of the pipe. -/
theorem piped_read_inPlace_iff (buffer : ℤ → Byte) (writer : Option Tid) (space : Tid → Space)
    (initialValue : ℕ → ℤ) (labs : List (Label Act)) (k : Kernel Pc Data)
    (h : runFrom (step client) (init .out (Data.new buffer writer space) initialValue)
      labs = .ok k) :
    (∀ r ∈ k.data.returned, 0 ≤ r.value → (r.InPlace ↔ Lasting r.results)) ∧
      (Meets (step client) ConnectsInTime
        (init .out (Data.new buffer writer space) initialValue) labs →
          ∀ r ∈ k.data.returned, 0 ≤ r.value → r.InPlace) := by
  have hsound := runs_sound ⟨labs, h⟩
  refine ⟨?_, ?_⟩
  · intro r hr hnonneg
    exact (hsound.returned r hr hnonneg).inPlace_iff
  · intro hmeets r hr hnonneg
    exact (hsound.returned r hr hnonneg).inPlace_iff.2 ((runs_ended h hmeets).returned r hr)

/-- A memory of one page. -/
def blank : Space := ⟨1, fun _ => 0⟩

/-- The program calls the kernel. -/
def calls (o : Call Pc) : Act := .other o blank

/-- `Pipe::Read` and `Pipe::Write` go on. -/
def resumes : Act := calls .oneTick

/-- The reading process finds the pipe empty and waits; the writing process writes 65 and 66. -/
def readTwo : List (Label Act) :=
  turns [(calls (.fork 1 0 .out), 3), (.read2 0 2 0, 4), (resumes, 7), (.write 65, 4), (resumes, 0),
    (resumes, 3), (.write 66, 4), (resumes, 0), (resumes, 3), (calls .yield, 11), (resumes, 0),
    (resumes, 3), (.writeMem, 4), (resumes, 0), (resumes, 3), (.writeMem, 0)]

theorem piped_read_inPlace_two :
    ∃ k, runFrom (step client) (init .out (Data.new (fun _ => 0) (some 1) fun _ => blank)
      fun _ => 0)
        readTwo = .ok k ∧
      ∃ r ∈ k.data.returned, r.value = 2 ∧ r.stores = [(0, 65), (1, 66)] ∧ r.InPlace := by
  have hpass : passes (step client)
      (init .out (Data.new (fun _ => 0) (some 1) fun _ => blank) fun _ => 0) readTwo
      (fun k => k.data.returned.map (fun r => (r.value, r.stores)) = [(2, [(0, 65), (1, 66)])]) =
        true := by
    decide +kernel
  obtain ⟨k, hk, hend⟩ := runFrom_of_passes hpass
  rw [decide_eq_true_eq] at hend
  have hmem : ((2, [(0, 65), (1, 66)]) : ℤ × List (BitVec 32 × Byte)) ∈
      k.data.returned.map fun r => (r.value, r.stores) := by simp [hend]
  obtain ⟨r, hr, heq⟩ := List.mem_map.1 hmem
  obtain ⟨hvalue, hstores⟩ := Prod.mk.inj heq
  refine ⟨k, hk, r, hr, hvalue, hstores, ?_⟩
  refine (piped_read_inPlace_iff _ _ _ _ _ k hk).2 (.of_forall ?_) r hr (by rw [hvalue]; decide)
  intro lab hlab k' writer o hconnect
  simp [readTwo, turns, calls, resumes, hconnect] at hlab

/-- The process that has made the pipe reads before the output end is given to another one, which is
made and writes 65 while the call goes on. -/
def readLate : List (Label Act) :=
  turns [(calls (.fork 1 0 .out), 3), (calls .yield, 3), (.read2 0 2 0, 4), (resumes, 2)] ++
    [Label.timer] ++ List.replicate 5 Label.go ++
    turns [(Act.connect 2 (.fork 2 0 .out), 3), (calls .yield, 4), (resumes, 4), (resumes, 7),
      (.write 65, 4), (resumes, 0), (resumes, 3), (calls .yield, 4), (calls .yield, 11),
      (resumes, 0), (resumes, 3), (.writeMem, 0)]

/-- The call returns 1, and the byte 65 is not at the begin of the buffer. -/
theorem piped_read_leaves_gap :
    ∃ k, runFrom (step client) (init .out (Data.new (fun _ => 0) none fun _ => blank) fun _ => 0)
        readLate = .ok k ∧
      ∃ r ∈ k.data.returned, r.value = 1 ∧ r.results = [endOfPipe, 65] ∧ r.stores = [(1, 65)] ∧
        ¬r.InPlace := by
  have hpass : passes (step client)
      (init .out (Data.new (fun _ => 0) none fun _ => blank) fun _ => 0) readLate
      (fun k => k.data.returned.map (fun r => (r.buffer, r.value, r.results, r.stores)) =
        [(0, 1, [endOfPipe, 65], [(1, 65)])]) = true := by
    decide +kernel
  obtain ⟨k, hk, hend⟩ := runFrom_of_passes hpass
  rw [decide_eq_true_eq] at hend
  have hmem : ((0, 1, [endOfPipe, 65], [(1, 65)]) :
      BitVec 32 × ℤ × List ℤ × List (BitVec 32 × Byte)) ∈
        k.data.returned.map fun r => (r.buffer, r.value, r.results, r.stores) := by simp [hend]
  obtain ⟨r, hr, heq⟩ := List.mem_map.1 hmem
  simp only [Prod.mk.injEq] at heq
  obtain ⟨hbuffer, hvalue, hresults, hstores⟩ := heq
  refine ⟨k, hk, r, hr, hvalue, hresults, hstores, ?_⟩
  intro hin
  have hplace := hin.stores
  rw [Returned.taken, hresults, hstores, hbuffer] at hplace
  exact absurd hplace (by decide)

end PipedRead

end Nachos
