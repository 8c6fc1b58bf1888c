import Nachos.Lib.Ring
import Nachos.Threads.Monitor

/-!
# Pipes

`Pipe::Read` and `Pipe::Write` as a program over the kernel: any number of threads call them
on one pipe in any order, and between these calls they may open and close its ends and do
anything that does not touch its lock and its condition.

`reads` and `writes` are the values that the calls return, each written down when it is known;
`taken` are the values that have come out of the buffer, and `used` the indices of the buffer that
have been used.
-/

namespace Nachos

open Lib

namespace Pipe

/-- Where a thread is in the code of the pipe. -/
inductive Pc where
  | out
  /-- The loop test of `Read`. -/
  | readTest
  /-- The loop test of `Write`. -/
  | writeTest (ch : BitVec 8)
  /-- Before the last `Release`. -/
  | leave
  deriving DecidableEq

structure Data where
  capacity : ℤ
  size : ℤ
  start : ℤ
  endIndex : ℤ
  inOpen : ℤ
  outOpen : ℤ
  buffer : ℤ → BitVec 8
  reads : List ℤ
  writes : List (BitVec 8 × ℤ)
  taken : List ℤ
  used : List ℤ

/-- The constructor of `Pipe`; the bytes of the new buffer are not set. -/
def Data.new (bufferSize : ℤ) (buffer : ℤ → BitVec 8) : Data where
  capacity := bufferSize
  size := 0
  start := 0
  endIndex := 0
  inOpen := 0
  outOpen := 0
  buffer := buffer
  reads := []
  writes := []
  taken := []
  used := []

def bufferLock : Obj := .user 0
def bufferCV : Obj := .user 0

/-- The value that `Read` returns at the end of the pipe. -/
def endOfPipe : ℤ := 1000000

/-- The call does not touch the pipe. -/
def foreign : Call Pc → Bool
  | .acquire l => l ≠ bufferLock
  | .release l => l ≠ bufferLock
  | .wait c l => c ≠ bufferCV ∧ l ≠ bufferLock
  | .signal c _ => c ≠ bufferCV
  | .broadcast c _ => c ≠ bufferCV
  | .fork _ _ start => start = .out
  | _ => true

/-- What a thread outside the pipe does next, and what a handler does. -/
inductive Act where
  | read
  | write (ch : BitVec 8)
  /-- `setInOpen`, before a call `o`. -/
  | setInOpen (value : ℤ) (o : Call Pc)
  /-- `setOutOpen`, before a call `o`. -/
  | setOutOpen (value : ℤ) (o : Call Pc)
  | other (o : Call Pc)
  | handle (sems : List ℕ)

/-- `Read` after its loop. -/
def Data.take (d : Data) : Data :=
  let start := if d.start = d.capacity then 0 else d.start
  let retVal := (d.buffer start).toInt
  { d with
    size := d.size - 1
    start := start + 1
    buffer := Function.update d.buffer start 0
    reads := d.reads ++ [retVal]
    taken := d.taken ++ [retVal]
    used := start :: d.used }

/-- `Write` after its loop. -/
def Data.put (d : Data) (ch : BitVec 8) : Data :=
  { d with
    size := d.size + 1
    endIndex := if d.endIndex + 1 = d.capacity then 0 else d.endIndex + 1
    buffer := Function.update d.buffer d.endIndex ch
    writes := d.writes ++ [(ch, 1)]
    used := d.endIndex :: d.used }

/-- `Pipe::Read` after its `Acquire`. -/
def readLoop (d : Data) : Call Pc × Pc × Data :=
  if d.size = 0 then
    if d.outOpen = 0 then
      (.release bufferLock, .out, { d with reads := d.reads ++ [endOfPipe] })
    else
      (.wait bufferCV bufferLock, .readTest, d)
  else
    (.broadcast bufferCV bufferLock, .leave, d.take)

/-- `Pipe::Write` after its `Acquire`. -/
def writeLoop (ch : BitVec 8) (d : Data) : Call Pc × Pc × Data :=
  if d.size = d.capacity then
    if d.inOpen = 0 then
      (.release bufferLock, .out, { d with writes := d.writes ++ [(ch, 0)] })
    else
      (.wait bufferCV bufferLock, .writeTest ch, d)
  else
    (.broadcast bufferCV bufferLock, .leave, d.put ch)

def next (pc : Pc) (d : Data) (a : Act) : Option (Call Pc × Pc × Data) :=
  match pc with
  | .out =>
      match a with
      | .read => some (.acquire bufferLock, .readTest, d)
      | .write ch => some (.acquire bufferLock, .writeTest ch, d)
      | .setInOpen value o => if foreign o then some (o, .out, { d with inOpen := value }) else none
      | .setOutOpen value o =>
          if foreign o then some (o, .out, { d with outOpen := value }) else none
      | .other o => if foreign o then some (o, .out, d) else none
      | .handle _ => none
  | .readTest => some (readLoop d)
  | .writeTest ch => some (writeLoop ch d)
  | .leave => some (.release bufferLock, .out, d)

/-- The program of the threads that use the pipe. -/
def client : Client Pc Data Act where
  next _ pc d _ a := next pc d a
  handler a d :=
    match a with
    | .handle sems => some (sems, d)
    | _ => none

/-- The bytes that `Write` has accepted. -/
def Data.accepted (d : Data) : List ℤ := (d.writes.filter fun w => w.2 = 1).map fun w => w.1.toInt

/-- The bytes that `Read` has returned. -/
def Data.delivered (d : Data) : List ℤ := d.reads.filter fun v => v ≠ endOfPipe

/-- The bytes in the buffer, from `start` on. -/
def Data.contents (d : Data) : List ℤ :=
  (ring d.buffer d.capacity d.start d.size.toNat).map BitVec.toInt

/-- The own code of a thread up to its next call. -/
inductive Move (d : Data) : Pc → Act → Call Pc → Pc → Data → Prop
  | read : Move d .out .read (.acquire bufferLock) .readTest d
  | write (ch : BitVec 8) : Move d .out (.write ch) (.acquire bufferLock) (.writeTest ch) d
  | setInOpen (value : ℤ) (o : Call Pc) (h : foreign o = true) :
      Move d .out (.setInOpen value o) o .out { d with inOpen := value }
  | setOutOpen (value : ℤ) (o : Call Pc) (h : foreign o = true) :
      Move d .out (.setOutOpen value o) o .out { d with outOpen := value }
  | other (o : Call Pc) (h : foreign o = true) : Move d .out (.other o) o .out d
  | readEnd (a : Act) (h : d.size = 0) (hopen : d.outOpen = 0) :
      Move d .readTest a (.release bufferLock) .out { d with reads := d.reads ++ [endOfPipe] }
  | readSleep (a : Act) (h : d.size = 0) (hopen : d.outOpen ≠ 0) :
      Move d .readTest a (.wait bufferCV bufferLock) .readTest d
  | take (a : Act) (h : d.size ≠ 0) :
      Move d .readTest a (.broadcast bufferCV bufferLock) .leave d.take
  | writeEnd (ch : BitVec 8) (a : Act) (h : d.size = d.capacity) (hopen : d.inOpen = 0) :
      Move d (.writeTest ch) a (.release bufferLock) .out { d with writes := d.writes ++ [(ch, 0)] }
  | writeSleep (ch : BitVec 8) (a : Act) (h : d.size = d.capacity) (hopen : d.inOpen ≠ 0) :
      Move d (.writeTest ch) a (.wait bufferCV bufferLock) (.writeTest ch) d
  | put (ch : BitVec 8) (a : Act) (h : d.size ≠ d.capacity) :
      Move d (.writeTest ch) a (.broadcast bufferCV bufferLock) .leave (d.put ch)
  | leave (a : Act) : Move d .leave a (.release bufferLock) .out d

theorem move_of_next {pc pc' : Pc} {d d' : Data} {a : Act} {o : Call Pc}
    (h : next pc d a = some (o, pc', d')) : Move d pc a o pc' d' := by
  cases pc with
  | out =>
      cases a with
      | read =>
          cases h
          exact .read
      | write ch =>
          cases h
          exact .write ch
      | handle sems => cases h
      | setInOpen value o' =>
          simp only [next] at h
          split at h
          · cases h
            exact .setInOpen value _ ‹_›
          · cases h
      | setOutOpen value o' =>
          simp only [next] at h
          split at h
          · cases h
            exact .setOutOpen value _ ‹_›
          · cases h
      | other o' =>
          simp only [next] at h
          split at h
          · cases h
            exact .other _ ‹_›
          · cases h
  | readTest =>
      simp only [next, readLoop] at h
      by_cases hsize : d.size = 0
      · rw [if_pos hsize] at h
        by_cases hopen : d.outOpen = 0
        · rw [if_pos hopen] at h
          cases h
          exact .readEnd a hsize hopen
        · rw [if_neg hopen] at h
          cases h
          exact .readSleep a hsize hopen
      · rw [if_neg hsize] at h
        cases h
        exact .take a hsize
  | writeTest ch =>
      simp only [next, writeLoop] at h
      by_cases hsize : d.size = d.capacity
      · rw [if_pos hsize] at h
        by_cases hopen : d.inOpen = 0
        · rw [if_pos hopen] at h
          cases h
          exact .writeEnd ch a hsize hopen
        · rw [if_neg hopen] at h
          cases h
          exact .writeSleep ch a hsize hopen
      · rw [if_neg hsize] at h
        cases h
        exact .put ch a hsize
  | leave =>
      cases h
      exact .leave a

theorem steady : client.Steady .out where
  fork := by
    intro t pc d view a c join start pc' d' h
    have hmove := move_of_next h
    cases hmove with
    | setInOpen value o ho => simpa [foreign] using ho
    | setOutOpen value o ho => simpa [foreign] using ho
    | other o ho => simpa [foreign] using ho
  handler := by
    intro a d sems d' h
    cases a <;> simp [client] at h
    exact h.2.symm

structure Sound (capacity : ℤ) (d : Data) : Prop where
  fixed : d.capacity = capacity
  size : 0 ≤ d.size ∧ d.size ≤ capacity
  start : 0 ≤ d.start ∧ d.start ≤ capacity
  ends : d.endIndex = (d.start + d.size) % capacity
  fifo : d.accepted = d.taken ++ d.contents
  delivered : d.delivered = d.taken
  byte : ∀ v ∈ d.taken, v ≠ endOfPipe
  used : ∀ i ∈ d.used, 0 ≤ i ∧ i < capacity

/-- A byte is not the end of the pipe. -/
theorem byte_ne (b : BitVec 8) : b.toInt ≠ endOfPipe := by
  have := b.toInt_lt
  simp only [endOfPipe]
  omega

theorem Sound.new {capacity : ℤ} (h : 1 ≤ capacity) (buffer : ℤ → BitVec 8) :
    Sound capacity (Data.new capacity buffer) := by
  have hpos : 0 ≤ capacity := by omega
  exact ⟨rfl, ⟨le_rfl, hpos⟩, ⟨le_rfl, hpos⟩, by simp [Data.new], rfl, rfl, by simp [Data.new],
    by simp [Data.new]⟩

theorem Sound.take {capacity : ℤ} {d : Data} (hcap : 1 ≤ capacity) (h : Sound capacity d)
    (hsize : d.size ≠ 0) : Sound capacity d.take := by
  obtain ⟨hsize0, hsizec⟩ := h.size
  obtain ⟨hstart0, hstartc⟩ := h.start
  -- `start` is `start % capacity` once it has been wrapped
  have hwrap : (if d.start = d.capacity then 0 else d.start) = d.start % capacity := by
    rw [h.fixed]
    by_cases heq : d.start = capacity
    · rw [if_pos heq, heq, Int.emod_self]
    · rw [if_neg heq, Int.emod_eq_of_lt hstart0 (by omega)]
  have hlt := Int.emod_lt_of_pos d.start (show 0 < capacity by omega)
  have hnonneg := Int.emod_nonneg d.start (show capacity ≠ 0 by omega)
  have hcontents : d.contents =
      (d.buffer (d.start % capacity)).toInt :: d.take.contents := by
    obtain ⟨n, hn⟩ : ∃ n : ℕ, d.size.toNat = n + 1 := ⟨d.size.toNat - 1, by omega⟩
    have hn' : (d.size - 1).toNat = n := by omega
    simp only [Data.contents, Data.take, hwrap, hn, hn', ring_succ, List.map_cons]
    rw [h.fixed, ring_emod_add, ring_pop (by omega)]
  refine ⟨h.fixed, ?_, ?_, ?_, ?_, ?_, ?_, ?_⟩
  · exact ⟨by simp only [Data.take]; omega, by simp only [Data.take]; omega⟩
  · simp only [Data.take, hwrap]
    omega
  · simp only [Data.take, hwrap]
    rw [h.ends, show d.start % capacity + 1 + (d.size - 1) = d.start % capacity + d.size by omega,
      Int.emod_add_emod]
  · have hfifo := h.fifo
    rw [hcontents] at hfifo
    simpa [Data.take, hwrap, Data.accepted] using hfifo
  · have hdel := h.delivered
    unfold Data.delivered at hdel
    rw [Data.delivered, Data.take, List.filter_append, hdel]
    simp [byte_ne]
  · intro v hv
    simp only [Data.take, List.mem_append, List.mem_singleton] at hv
    rcases hv with hv | rfl
    · exact h.byte v hv
    · exact byte_ne _
  · intro i hi
    simp only [Data.take, hwrap, List.mem_cons] at hi
    rcases hi with rfl | hi
    · exact ⟨hnonneg, hlt⟩
    · exact h.used i hi

theorem Sound.put {capacity : ℤ} {d : Data} (hcap : 1 ≤ capacity) (h : Sound capacity d)
    (hsize : d.size ≠ d.capacity) (ch : BitVec 8) : Sound capacity (d.put ch) := by
  obtain ⟨hsize0, hsizec⟩ := h.size
  rw [h.fixed] at hsize
  have hlt := Int.emod_lt_of_pos (d.start + d.size) (show 0 < capacity by omega)
  have hnonneg := Int.emod_nonneg (d.start + d.size) (show capacity ≠ 0 by omega)
  rw [← h.ends] at hlt hnonneg
  have hcontents : (d.put ch).contents = d.contents ++ [ch.toInt] := by
    have hn : (d.size + 1).toNat = d.size.toNat + 1 := by omega
    have hcast : ((d.size.toNat : ℕ) : ℤ) = d.size := Int.toNat_of_nonneg hsize0
    have hend : d.endIndex = (d.start + (d.size.toNat : ℕ)) % capacity := by rw [hcast, h.ends]
    simp only [Data.contents, Data.put, hn, h.fixed, hend]
    rw [ring_push (by omega), List.map_append, List.map_singleton]
  refine ⟨h.fixed, ?_, h.start, ?_, ?_, h.delivered, h.byte, ?_⟩
  · simp only [Data.put]
    omega
  · -- `end` wraps at once
    simp only [Data.put]
    rw [h.fixed, show d.start + (d.size + 1) = d.start + d.size + 1 by omega,
      ← Int.emod_add_emod, ← h.ends]
    by_cases heq : d.endIndex + 1 = capacity
    · rw [if_pos heq, heq, Int.emod_self]
    · rw [if_neg heq, Int.emod_eq_of_lt (by omega) (by omega)]
  · rw [hcontents, ← List.append_assoc]
    have htaken : (d.put ch).taken = d.taken := rfl
    rw [htaken, ← h.fifo]
    simp [Data.put, Data.accepted]
  · intro i hi
    simp only [Data.put, List.mem_cons] at hi
    rcases hi with rfl | hi
    · exact ⟨hnonneg, hlt⟩
    · exact h.used i hi

theorem Sound.move {capacity : ℤ} {d d' : Data} {pc pc' : Pc} {a : Act} {o : Call Pc}
    (hcap : 1 ≤ capacity) (h : Sound capacity d) (hmove : Move d pc a o pc' d') :
    Sound capacity d' := by
  cases hmove with
  | setInOpen value o ho =>
      exact ⟨h.fixed, h.size, h.start, h.ends, h.fifo, h.delivered, h.byte, h.used⟩
  | setOutOpen value o ho =>
      exact ⟨h.fixed, h.size, h.start, h.ends, h.fifo, h.delivered, h.byte, h.used⟩
  | readEnd a hsize hopen =>
      refine ⟨h.fixed, h.size, h.start, h.ends, h.fifo, ?_, h.byte, h.used⟩
      have hdel := h.delivered
      unfold Data.delivered at hdel
      simp only [Data.delivered, List.filter_append, hdel]
      simp
  | writeEnd ch a hsize hopen =>
      refine ⟨h.fixed, h.size, h.start, h.ends, ?_, h.delivered, h.byte, h.used⟩
      have hfifo := h.fifo
      unfold Data.accepted at hfifo
      simpa [Data.accepted, List.filter_append, Data.contents] using hfifo
  | take a hsize => exact h.take hcap hsize
  | put ch a hsize => exact h.put hcap hsize ch
  | _ => exact h

open Kernel

/-- A pipe is a FIFO queue of bytes: what `Write` has accepted is what `Read` has returned,
followed by what is in the buffer. -/
theorem pipe_fifo (capacity : ℤ) (hcap : 1 ≤ capacity) (buffer : ℤ → BitVec 8)
    (initialValue : ℕ → ℤ) (k : Kernel Pc Data)
    (h : Runs client .out (Data.new capacity buffer) initialValue k) :
    (0 ≤ k.data.size ∧ k.data.size ≤ capacity) ∧
      k.data.accepted = k.data.delivered ++ k.data.contents ∧
        (∀ i ∈ k.data.used, 0 ≤ i ∧ i < capacity) ∧
          k.data.delivered = k.data.taken ∧ ∀ v ∈ k.data.taken, v ≠ endOfPipe := by
  have hk : Sound capacity k.data := by
    refine h.monitor_invariant (I := fun s => Sound capacity s.data) steady (.new hcap buffer) ?_
    intro s s' t a o pc _ hs hturn
    obtain ⟨view, hnext⟩ := hturn.next
    exact hs.move hcap (move_of_next hnext)
  refine ⟨hk.size, ?_, hk.used, hk.delivered, hk.byte⟩
  rw [hk.delivered]
  exact hk.fifo

/-- A thread writes 7, reads it and writes 200, in a pipe with room for one byte. -/
theorem pipe_fifo_one :
    ∃ k, Runs client .out (Data.new 1 fun _ => 0) (fun _ => 0) k ∧ k.data.delivered = [7] ∧
      k.data.contents = [-56] ∧ k.data.accepted = k.data.delivered ++ k.data.contents := by
  have hpass : passes (step client) (init .out (Data.new 1 fun _ => 0) fun _ => 0)
      (turns [(.setInOpen 1 .oneTick, 2), (.setOutOpen 1 .oneTick, 2), (.write 7, 4), (.read, 0),
        (.read, 3), (.read, 4), (.read, 0), (.read, 3), (.write 200, 4), (.read, 0), (.read, 3)])
      (fun k => k.data.delivered = [7] && k.data.contents = [-56]) = true := by
    decide +kernel
  obtain ⟨k, hk, hend⟩ := exists_of_passes _ hpass
  rw [Bool.and_eq_true, decide_eq_true_eq, decide_eq_true_eq] at hend
  exact ⟨k, hk, hend.1, hend.2, (pipe_fifo 1 le_rfl _ _ k hk).2.1⟩

/-! ## The other end -/

/-- A thread sleeps in `Read` on an empty pipe that nobody will write to, or in `Write` on a full
pipe that nobody will read. -/
def Forsaken (k : Kernel Pc Data) : Prop :=
  ∃ t ∈ (k.queue (.condition bufferCV)).map Keyed.item,
    k.pc t = .readTest ∧ k.data.size = 0 ∧ k.data.outOpen = 0 ∨
      (∃ ch, k.pc t = .writeTest ch) ∧ k.data.size = k.data.capacity ∧ k.data.inOpen = 0

/-- The output end is closed when nobody sleeps in `Read`, and the input end when nobody sleeps
in `Write`. -/
def Considerate (k : Kernel Pc Data) : Label Act → Prop
  | .act (.setOutOpen value _) => k.pc k.currentThread = .out → value = 0 →
      ∀ t ∈ (k.queue (.condition bufferCV)).map Keyed.item, k.pc t ≠ .readTest
  | .act (.setInOpen value _) => k.pc k.currentThread = .out → value = 0 →
      ∀ t ∈ (k.queue (.condition bufferCV)).map Keyed.item, ∀ ch, k.pc t ≠ .writeTest ch
  | _ => True

/-- The thread at `pc` may sleep. -/
def Data.Sleeps (d : Data) (pc : Pc) : Prop :=
  pc = .readTest ∧ d.size = 0 ∧ d.outOpen ≠ 0 ∨
    (∃ ch, pc = .writeTest ch) ∧ d.size = d.capacity ∧ d.inOpen ≠ 0

/-- Everybody who sleeps has a reason to. -/
def Waits (s : Monitor Pc Data) : Prop := ∀ t ∈ s.asleep 0, s.data.Sleeps (s.pc t)

theorem about_of_foreign {o : Call Pc} (h : foreign o = true) :
    o.about ≠ some (.condition bufferCV) := by
  cases o with
  | wait c l =>
      simp only [foreign, decide_eq_true_eq] at h
      simp [Call.about, h.1]
  | signal c l =>
      simp only [foreign, decide_eq_true_eq] at h
      simp [Call.about, h]
  | broadcast c l =>
      simp only [foreign, decide_eq_true_eq] at h
      simp [Call.about, h]
  | _ => simp [Call.about]

variable {s s' : Monitor Pc Data} {t : Tid}

/-- A change of the number of bytes wakes everybody. -/
theorem Waits.turn {a : Act} {o : Call Pc} {pc : Pc} (h : Waits s)
    (hturn : s.Turn client t a o pc s')
    (hout : ∀ o', a = .setOutOpen 0 o' → s.pc t = .out → ∀ u ∈ s.asleep 0, s.pc u ≠ .readTest)
    (hin : ∀ o', a = .setInOpen 0 o' → s.pc t = .out →
      ∀ u ∈ s.asleep 0, ∀ ch, s.pc u ≠ .writeTest ch) : Waits s' := by
  obtain ⟨view, hnext⟩ := hturn.next
  have hmove := move_of_next hnext
  have hrouse := hturn.rouses
  generalize hpc₀ : s.pc t = pc₀ at hmove hout hin
  generalize hd : s'.data = d at hmove
  -- who was asleep stays so only if the data still say so
  have hold :
      (∀ l, o ≠ .wait bufferCV l) → (∀ u ∈ s.asleep 0, s'.data.Sleeps (s.pc u)) → Waits s' := by
    intro hno hsleep u hu
    rcases hrouse.mem hu with hmem | ⟨-, l, rfl⟩
    · rw [hturn.pc_of_asleep hmem]
      exact hsleep u hmem
    · exact absurd rfl (hno l)
  have hforeign : foreign o = true → ∀ l, o ≠ .wait bufferCV l := by
    rintro ho l rfl
    exact about_of_foreign ho rfl
  have hall : o = .broadcast bufferCV bufferLock → Waits s' := by
    rintro rfl u hu
    generalize s'.asleep = asleep' at hrouse hu
    cases hrouse with
    | broadcast c l => simp at hu
    | other o ho => exact absurd rfl (ho 0)
  have hsleeper : s'.data = s.data → s.data.Sleeps pc → Waits s' := by
    intro hsame hsleeps u hu
    rw [hsame]
    rcases hrouse.mem hu with hmem | ⟨rfl, -⟩
    · rw [hturn.pc_of_asleep hmem]
      exact h u hmem
    · rwa [hturn.pc_self]
  cases hmove with
  | read => exact hold (by simp) (by rwa [hd])
  | write ch => exact hold (by simp) (by rwa [hd])
  | other o ho => exact hold (hforeign ho) (by rwa [hd])
  | leave a => exact hold (by simp) (by rwa [hd])
  | setInOpen value o ho =>
      refine hold (hforeign ho) ?_
      intro u hu
      rw [hd]
      rcases h u hu with hread | ⟨⟨ch, hch⟩, hfull, hopen⟩
      · exact .inl hread
      · refine .inr ⟨⟨ch, hch⟩, hfull, ?_⟩
        rintro rfl
        exact hin o rfl rfl u hu ch hch
  | setOutOpen value o ho =>
      refine hold (hforeign ho) ?_
      intro u hu
      rw [hd]
      rcases h u hu with ⟨hread, hempty, hopen⟩ | hwrite
      · refine .inl ⟨hread, hempty, ?_⟩
        rintro rfl
        exact hout o rfl rfl u hu hread
      · exact .inr hwrite
  | readEnd a hsize hopen => exact hold (by simp) (by rw [hd]; exact h)
  | writeEnd ch a hsize hopen => exact hold (by simp) (by rw [hd]; exact h)
  | readSleep a hsize hopen => exact hsleeper hd (.inl ⟨rfl, hsize, hopen⟩)
  | writeSleep ch a hsize hopen => exact hsleeper hd (.inr ⟨⟨ch, rfl⟩, hsize, hopen⟩)
  | take a hsize => exact hall rfl
  | put ch a hsize => exact hall rfl

/-- In a run in which an end of the pipe is closed only when nobody sleeps at the other one,
nobody sleeps on a pipe whose other end is gone. -/
theorem pipe_not_forsaken (capacity : ℤ) (buffer : ℤ → BitVec 8) (initialValue : ℕ → ℤ)
    (labs : List (Label Act)) (k : Kernel Pc Data)
    (hmeets : Meets (step client) Considerate (init .out (Data.new capacity buffer)
      initialValue) labs)
    (hrun : runFrom (step client) (init .out (Data.new capacity buffer) initialValue)
      labs = .ok k) :
    ¬ Forsaken k := by
  have hinv := monitor_of_meets (I := Waits) steady ?_ ?_ hmeets hrun
  · rintro ⟨t, ht, hgone⟩
    have hsleeps : k.data.Sleeps (k.pc t) := hinv.2 t (.inl ht)
    rcases hsleeps with ⟨hread, -, hopen⟩ | ⟨⟨ch, hch⟩, -, hopen⟩
    · rcases hgone with ⟨-, -, hclosed⟩ | ⟨⟨ch, hch⟩, -⟩
      · exact hopen hclosed
      · simp [hread] at hch
    · rcases hgone with ⟨hread, -⟩ | ⟨-, -, hclosed⟩
      · simp [hread] at hch
      · exact hopen hclosed
  · intro t ht
    simp [monitor, SleepsOn, Kernel.init] at ht
  · intro k k' a o pc hr h hlab hnil hturn
    refine h.turn hturn ?_ ?_
    · rintro o' rfl hout u hu
      exact hlab hout rfl u ((sleepsOn_iff_of_own hr.atomic hnil 0 u).1 hu)
    · rintro o' rfl hout u hu
      exact hlab hout rfl u ((sleepsOn_iff_of_own hr.atomic hnil 0 u).1 hu)

def considerateTest (k : Kernel Pc Data) : Label Act → Bool
  | .act (.setOutOpen value _) => value ≠ 0 ||
      ((k.queue (.condition bufferCV)).map Keyed.item).all fun t => k.pc t ≠ .readTest
  | .act (.setInOpen value _) => value ≠ 0 || (k.queue (.condition bufferCV)).isEmpty
  | _ => true

theorem considerate_of_test {k : Kernel Pc Data} {lab : Label Act}
    (h : considerateTest k lab = true) : Considerate k lab := by
  cases lab with
  | act a =>
      cases a with
      | setOutOpen value o =>
          intro _ hvalue t ht
          simp only [considerateTest, hvalue, ne_eq, not_true_eq_false, decide_false, Bool.false_or,
            List.all_eq_true] at h
          simpa using h t ht
      | setInOpen value o =>
          intro _ hvalue t ht
          simp only [considerateTest, hvalue, ne_eq, not_true_eq_false, decide_false, Bool.false_or,
            List.isEmpty_iff] at h
          simp [h] at ht
      | _ => trivial
  | _ => trivial

/-- A thread sleeps in `Read` until the main thread writes a byte; then the main thread closes the
output end, and the byte is read. -/
theorem pipe_not_forsaken_woken :
    ∃ labs k, Meets (step client) Considerate (init .out (Data.new 1 fun _ => 0) fun _ => 0) labs ∧
      runFrom (step client) (init .out (Data.new 1 fun _ => 0) fun _ => 0) labs = .ok k ∧
        k.data.outOpen = 0 ∧ k.data.delivered = [7] ∧ ¬ Forsaken k := by
  have hpass : passesMeeting (step client) considerateTest
      (fun k => k.data.outOpen = 0 && k.data.delivered = [7])
      (init .out (Data.new 1 fun _ => 0) fun _ => 0)
      (turns [(.setOutOpen 1 (.fork 1 0 .out), 3), (.other .yield, 3), (.read, 4), (.read, 8),
        (.write 7, 4), (.read, 0), (.read, 3), (.setOutOpen 0 (.acquire (.user 1)), 4),
        (.other .yield, 11), (.read, 0), (.read, 3)]) = true := by
    decide +kernel
  obtain ⟨hmeets, k, hrun, hend⟩ := of_passesMeeting hpass
  replace hmeets := hmeets.imp (Q := Considerate) fun _ _ => considerate_of_test
  rw [Bool.and_eq_true, decide_eq_true_eq, decide_eq_true_eq] at hend
  exact ⟨_, k, hmeets, hrun, hend.1, hend.2, pipe_not_forsaken 1 _ _ _ k hmeets hrun⟩

/-- A thread sleeps in `Read` when the process at the output end exits. -/
theorem pipe_forsakes :
    ∃ k, Runs client .out (Data.new 128 fun _ => 0) (fun _ => 0) k ∧ Forsaken k := by
  have hpass : passes (step client) (init .out (Data.new 128 fun _ => 0) fun _ => 0)
      (turns [(.setOutOpen 1 .oneTick, 2), (.setInOpen 1 (.fork 1 0 .out), 3), (.other .yield, 3),
        (.read, 4), (.read, 8), (.setOutOpen 0 (.acquire (.user 1)), 4)])
      (fun k => 1 ∈ (k.queue (.condition bufferCV)).map Keyed.item && k.pc 1 = .readTest &&
        k.data.size = 0 && k.data.outOpen = 0) = true := by
    decide +kernel
  obtain ⟨k, hk, hend⟩ := exists_of_passes _ hpass
  simp only [Bool.and_eq_true, decide_eq_true_eq] at hend
  obtain ⟨⟨⟨hmem, hpc⟩, hsize⟩, hopen⟩ := hend
  exact ⟨k, hk, 1, hmem, .inl ⟨hpc, hsize, hopen⟩⟩

end Pipe

end Nachos
