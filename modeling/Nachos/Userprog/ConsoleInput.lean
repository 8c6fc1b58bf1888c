import Nachos.Threads.Section
import Nachos.Threads.SemaphoreCalls
import Nachos.Userprog.AddrSpace

/-!
# Input from the console

`SynchConsole::GetChar` over `Console`, as a program over the kernel: any number of threads call it
under `ReadLock`, in any order, and the console polls its file at any time at which the CPU accepts
an interrupt. The buffer of the console is one `char`, which is empty when it holds `EOF`. `input`
is what is still to come from the file, `read` are the bytes that have been read from it, and `got`
are the characters that `GetChar` has returned.

The byte 0xFF is `EOF` as a `char`, so the console takes a buffer with this byte for an empty one
and reads the next byte over it. This is seen if and only if another byte than 0xFF follows.
-/

namespace Nachos

open Lib

namespace ConsoleInput

/-- `EOF` of the C library. -/
def EOF : ℤ := -1

/-- `EOF` as a `char`. -/
def mark : Byte := BitVec.ofInt 8 EOF

/-- Where a thread is in its use of the console. -/
inductive Pc where
  | out
  /-- The thread has called `ReadLock->Acquire`. -/
  | locked
  /-- `GetChar` after its `P`. -/
  | getChar
  deriving DecidableEq

structure Data where
  input : List Byte
  incoming : Byte
  read : List Byte
  got : List Byte
  /-- The threads that have called `GetChar`. -/
  asked : List Tid

/-- The constructor of `Console`. -/
def Data.new (input : List Byte) : Data where
  input := input
  incoming := mark
  read := []
  got := []
  asked := []

def readLock : ℕ := 0

/-- The semaphore `r`. -/
def available : ℕ := 0

/-- The call does not touch the console and `ReadLock`. -/
def foreign : Call Pc → Bool
  | .P s => s ≠ available
  | .V s => s ≠ available
  | .acquire l => l ≠ .user readLock
  | .release l => l ≠ .user readLock
  | .wait _ l => l ≠ .user readLock
  | .fork _ _ start => start = .out
  | _ => true

/-- What a thread does next, and what a handler does. -/
inductive Act where
  | acquire
  | getChar
  | release
  | other (o : Call Pc)
  /-- The console polls its file; `ready` is what `PollFile` returns. -/
  | poll (ready : Bool)
  | handle (sems : List ℕ)

namespace Data

/-- `Console::CheckCharAvail`, with the semaphores that the handler calls `V` on. At the end of the
file the `ASSERT` of `Read` fails. -/
def checkCharAvail (d : Data) (ready : Bool) : Option (List ℕ × Data) :=
  if d.incoming.toInt ≠ EOF ∨ ready = false then
    some ([], d)
  else
    match d.input with
    | [] => none
    | c :: rest => some ([available], { d with
        input := rest
        incoming := c
        read := d.read ++ [c] })

/-- `Console::GetChar`, which is the end of `SynchConsole::GetChar`. -/
def take (d : Data) : Data := { d with incoming := mark, got := d.got ++ [d.incoming] }

/-- What a thread does next under `ReadLock`. -/
def underLock (d : Data) (t : Tid) : Act → Option (Call Pc × Pc × Data)
  | .getChar => some (.P available, .getChar, { d with asked := d.asked ++ [t] })
  | .release => some (.release (.user readLock), .out, d)
  | .other o => if foreign o then some (o, .locked, d) else none
  | _ => none

end Data

def next (t : Tid) (pc : Pc) (d : Data) (a : Act) : Option (Call Pc × Pc × Data) :=
  match pc with
  | .out =>
      match a with
      | .acquire => some (.acquire (.user readLock), .locked, d)
      | .other o => if foreign o then some (o, .out, d) else none
      | _ => none
  | .locked => d.underLock t a
  | .getChar => d.take.underLock t a

/-- The program of the threads that read from the console. -/
def client : Client Pc Data Act where
  next t pc d _ a := next t pc d a
  handler a d :=
    match a with
    | .poll ready => d.checkCharAvail ready
    | .handle sems => if available ∈ sems then none else some (sems, d)
    | _ => none

/-! ## Moves -/

def Pc.inside : Pc → Bool
  | .out => false
  | _ => true

def Pc.entry : Pc → Bool
  | .locked => true
  | _ => false

/-- What `GetChar` has left when the own code of the thread goes on. -/
def Data.entered (d : Data) : Pc → Data
  | .getChar => d.take
  | _ => d

/-- What the own code of the thread `t` does up to its next call. -/
inductive Move (t : Tid) (d : Data) : Pc → Call Pc → Pc → Data → Prop
  | acquire : Move t d .out (.acquire (.user readLock)) .locked d
  | other (pc pc' : Pc) (hpc : pc'.inside = pc.inside) (hpc' : pc' ≠ .getChar) (o : Call Pc)
      (ho : foreign o = true) : Move t d pc o pc' (d.entered pc)
  | getChar (pc : Pc) (hpc : pc.inside = true) : Move t d pc (.P available) .getChar
      { d.entered pc with asked := d.asked ++ [t] }
  | release (pc : Pc) (hpc : pc.inside = true) :
      Move t d pc (.release (.user readLock)) .out (d.entered pc)

variable {t : Tid} {pc pc' : Pc} {d d' : Data} {a : Act} {o : Call Pc}

theorem move_of_underLock (hpc : pc.inside = true)
    (h : (d.entered pc).underLock t a = some (o, pc', d')) : Move t d pc o pc' d' := by
  have hasked : (d.entered pc).asked = d.asked := by cases pc <;> rfl
  cases a with
  | getChar =>
      simp only [Data.underLock, hasked, Option.some.injEq, Prod.mk.injEq] at h
      obtain ⟨rfl, rfl, rfl⟩ := h
      exact .getChar pc hpc
  | release =>
      cases h
      exact .release pc hpc
  | other o' =>
      simp only [Data.underLock] at h
      split at h
      · rename_i ho
        cases h
        exact .other pc .locked hpc.symm (by simp) _ ho
      · cases h
  | _ => cases h

theorem move_of_next {view : View} (h : client.next t pc d view a = some (o, pc', d')) :
    Move t d pc o pc' d' := by
  cases pc with
  | out =>
      cases a with
      | acquire =>
          cases h
          exact .acquire
      | other o' =>
          simp only [client, next] at h
          split at h
          · rename_i ho
            cases h
            exact .other .out .out rfl (by simp) _ ho
          · cases h
      | _ => cases h
  | locked => exact move_of_underLock rfl h
  | getChar => exact move_of_underLock rfl h

/-- A poll reads the next byte, or does nothing. -/
theorem handler_cases {sems : List ℕ} (h : client.handler a d = some (sems, d')) :
    (∃ c rest, d.incoming = mark ∧ d.input = c :: rest ∧ sems = [available] ∧
      d' = { d with input := rest, incoming := c, read := d.read ++ [c] }) ∨
        d' = d ∧ available ∉ sems := by
  cases a with
  | poll ready =>
      simp only [client, Data.checkCharAvail] at h
      split at h
      · cases h
        exact .inr ⟨rfl, by simp⟩
      · rename_i hempty
        split at h
        · cases h
        · rename_i c rest hinput
          cases h
          refine .inl ⟨c, rest, ?_, hinput, rfl, rfl⟩
          have hEOF : d.incoming.toInt = EOF := by
            by_contra hne
            exact hempty (.inl hne)
          rw [mark, ← hEOF, BitVec.ofInt_toInt]
  | handle sems' =>
      simp only [client] at h
      split at h
      · cases h
      · rename_i hmem
        cases h
        exact .inr ⟨rfl, hmem⟩
  | _ => cases h

theorem start_of_fork {view : View} {c : Tid} {join : ℤ} {start : Pc}
    (h : client.next t pc d view a = some (.fork c join start, pc', d')) : start = .out := by
  generalize ho : Call.fork c join start = o at h
  cases move_of_next h with
  | other pc pc' hpc hpc' o hforeign =>
      subst ho
      simpa [foreign] using hforeign
  | _ => cases ho

theorem foreign_about (h : foreign o = true) :
    o.about ≠ some (.lock (.user readLock)) ∧ (∀ c, o ≠ .wait c (.user readLock)) ∧
      o.about ≠ some (.semaphore available) := by
  cases o <;> simp_all [foreign, Call.about]

theorem guards : client.Guards readLock Pc.inside Pc.entry where
  crosses := by
    intro t pc d view a o pc' d' h
    cases move_of_next h with
    | acquire => exact .enter
    | other pc pc' hpc hpc' o ho =>
        obtain ⟨hlock, hwait, -⟩ := foreign_about ho
        rw [hpc]
        exact .stay _ o hlock hwait
    | getChar pc hpc =>
        rw [hpc]
        exact .stay _ _ (by simp [Call.about]) (by simp)
    | release pc hpc =>
        rw [hpc]
        exact .leave
  entry := by
    intro t pc d view a pc' d' h
    generalize ho : Call.acquire (.user readLock) = o at h
    cases move_of_next h with
    | acquire => rfl
    | other pc pc' hpc hpc' o hforeign =>
        subst ho
        simp [foreign] at hforeign
    | _ => cases ho
  fork := by
    intro t pc d view a c join start pc' d' h
    rw [start_of_fork h]
    rfl

theorem counts : client.Counts available Data.asked fun d => d.read.length where
  own := by
    intro t pc d view a o pc' d' h
    have hread : (d.entered pc).read = d.read ∧ (d.entered pc).asked = d.asked := by
      cases pc <;> exact ⟨rfl, rfl⟩
    cases move_of_next h with
    | acquire => simp [Call.countP, Call.countV]
    | other pc pc' hpc hpc' o ho =>
        obtain ⟨hP, hV⟩ := Call.count_of_other (foreign_about ho).2.2
        simp [hread, hP, hV]
    | getChar pc hpc => simp [hread, Call.countP, Call.countV]
    | release pc hpc => simp [hread, Call.countP, Call.countV]
  handler := by
    intro a d sems d' h
    rcases handler_cases h with ⟨c, rest, -, -, rfl, rfl⟩ | ⟨rfl, hmem⟩
    · simp
    · simp [List.count_eq_zero.2 hmem]

/-! ## Without a byte behind 0xFF -/

/-- No other byte follows the byte 0xFF. -/
def Unmarked (input : List Byte) : Prop := input.Pairwise fun a b => a = mark → b = mark

/-- The bytes that have been read and not returned: the one in the buffer, or 0xFF several times. -/
def Data.Buffered (d : Data) : Prop :=
  d.incoming ≠ mark ∧ d.read = d.got ++ [d.incoming] ∨
    d.incoming = mark ∧ ∃ n, d.read = d.got ++ List.replicate n mark

namespace Data.Buffered

theorem isPrefix (h : d.Buffered) : d.got <+: d.read := by
  rcases h with ⟨-, hread⟩ | ⟨-, n, hread⟩
  · exact hread ▸ List.prefix_append _ _
  · exact hread ▸ List.prefix_append _ _

theorem take (h : d.Buffered) (hlt : d.got.length < d.read.length) : d.take.Buffered := by
  rcases h with ⟨-, hread⟩ | ⟨hmark, n, hread⟩
  · exact .inr ⟨rfl, 0, by simp [Data.take, hread]⟩
  · cases n with
    | zero => simp [hread] at hlt
    | succ n =>
        refine .inr ⟨rfl, n, ?_⟩
        simp [Data.take, hread, hmark, List.replicate_succ]

/-- A poll reads a byte over the byte 0xFF only if it is another one of them. -/
theorem poll {c : Byte} {rest : List Byte} (h : d.Buffered) (hmark : d.incoming = mark)
    (hclean : Unmarked (d.read ++ c :: rest)) :
    Data.Buffered { d with input := rest, incoming := c, read := d.read ++ [c] } := by
  rcases h with ⟨hne, -⟩ | ⟨-, n, hread⟩
  · exact absurd hmark hne
  · by_cases hc : c = mark
    · refine .inr ⟨hc, n + 1, ?_⟩
      simp [hread, hc, List.replicate_succ']
    · cases n with
      | zero => exact .inl ⟨hc, by simp [hread]⟩
      | succ n =>
          have hlast : mark ∈ d.read := by simp [hread, List.replicate_succ]
          have hafter := (List.pairwise_append.1 hclean).2.2 mark hlast c List.mem_cons_self
          exact absurd (hafter rfl) hc

end Data.Buffered

/-- `input` is what has been in the file at first. -/
structure Sound (input : List Byte) (pcs : Tid → Pc) (d : Data) : Prop where
  whole : d.read ++ d.input = input
  buffered : d.Buffered
  idle : (∀ t, pcs t ≠ .getChar) → d.asked.length = d.got.length
  asking : (∃ t, pcs t = .getChar) → d.asked.length = d.got.length + 1

theorem Sound.new (input : List Byte) : Sound input (fun _ => .out) (Data.new input) where
  whole := rfl
  buffered := .inr ⟨rfl, 0, rfl⟩
  idle _ := rfl
  asking := by simp

/-- The own code of a thread that is alone in `GetChar`, and finds a byte there. -/
theorem Sound.move {input : List Byte} {pcs : Tid → Pc} (h : Sound input pcs d)
    (hmove : Move t d (pcs t) o pc' d')
    (halone : (pcs t).inside = true → ∀ u, pcs u = .getChar → u = t)
    (hfull : pcs t = .getChar → d.got.length < d.read.length) :
    Sound input (Function.update pcs t pc') d' := by
  have hentered : (d.entered (pcs t)).read = d.read ∧ (d.entered (pcs t)).input = d.input ∧
      (d.entered (pcs t)).asked = d.asked := by
    cases pcs t <;> exact ⟨rfl, rfl, rfl⟩
  obtain ⟨hread, hinput, hasked⟩ := hentered
  have hbuffered : (d.entered (pcs t)).Buffered := by
    cases hpc : pcs t with
    | getChar => exact h.buffered.take (hfull hpc)
    | _ => exact h.buffered
  -- when nobody else is in `GetChar`, every call of it has returned
  have hreturned : (∀ u, pcs u = .getChar → u = t) →
      d.asked.length = (d.entered (pcs t)).got.length := by
    intro honly
    cases hpc : pcs t with
    | getChar =>
        rw [h.asking ⟨t, hpc⟩]
        simp [Data.entered, Data.take]
    | _ =>
        refine h.idle fun u hu => ?_
        obtain rfl := honly u hu
        simp [hpc] at hu
  have hothers : ∀ {u}, pc' ≠ .getChar → Function.update pcs t pc' u = .getChar →
      u ≠ t ∧ pcs u = .getChar := by
    intro u hne hu
    by_cases hut : u = t
    · rw [hut, Function.update_self] at hu
      exact absurd hu hne
    · rw [Function.update_of_ne hut] at hu
      exact ⟨hut, hu⟩
  -- a move in the section that is not a call of `GetChar`
  have hleave : (pcs t).inside = true → pc' ≠ .getChar →
      Sound input (Function.update pcs t pc') (d.entered (pcs t)) := by
    intro hin hne
    refine ⟨by rw [hread, hinput, h.whole], hbuffered, fun _ => hasked ▸ hreturned (halone hin), ?_⟩
    rintro ⟨u, hu⟩
    obtain ⟨hut, hu⟩ := hothers hne hu
    exact absurd (halone hin u hu) hut
  -- a move outside
  have hstay : (pcs t).inside = false → pc' ≠ .getChar →
      Sound input (Function.update pcs t pc') d := by
    intro hout hne
    refine ⟨h.whole, h.buffered, ?_, ?_⟩
    · intro hnobody
      refine h.idle fun u hu => ?_
      by_cases hut : u = t
      · rw [← hut, hu] at hout
        cases hout
      · exact hnobody u (by rwa [Function.update_of_ne hut])
    · rintro ⟨u, hu⟩
      exact h.asking ⟨u, (hothers hne hu).2⟩
  generalize hpc : pcs t = pc at hmove
  cases hmove with
  | acquire => exact hstay (by rw [hpc]; rfl) (by simp)
  | other pc pc' hsame hne o ho =>
      cases hin : pc.inside with
      | true => exact hpc ▸ hleave (hpc ▸ hin) hne
      | false =>
          have hout : d.entered pc = d := by cases pc <;> simp_all [Pc.inside, Data.entered]
          rw [hout]
          exact hstay (hpc ▸ hin) hne
  | getChar pc hin =>
      subst hpc
      refine ⟨?_, hbuffered, ?_, ?_⟩
      · simp only
        rw [hread, hinput, h.whole]
      · intro hnobody
        exact absurd (Function.update_self t _ pcs) (hnobody t)
      · intro _
        simp only [List.length_append, List.length_singleton]
        rw [hreturned (halone hin)]
  | release pc hin => exact hpc ▸ hleave (hpc ▸ hin) (by simp)

open Kernel

variable {k : Kernel Pc Data} {input : List Byte} {initialValue : ℕ → ℤ}

/-- A thread in its own code in the section is the only one in `GetChar`. -/
theorem alone (hr : Runs client .out (Data.new input) initialValue k) (hin : (k.pc t).inside = true)
    (hnil : k.stack t = []) {u : Tid} (hu : k.pc u = .getChar) : u = t :=
  guards.unique rfl hr (by rw [hu]; rfl) hin (.inl (by rw [hu]; rfl)) (.inr hnil)

/-- A call of `P` that returns has found a byte. -/
theorem asked_le_read (hr : Runs client .out (Data.new input) initialValue k)
    (hvalue : initialValue available = 0) (hin : (k.pc t).inside = true) (hnil : k.stack t = []) :
    k.data.asked.length ≤ k.data.read.length := by
  refine counts.asked_le rfl rfl hvalue hr ?_
  intro u hmem
  obtain ⟨pc, d, view, a, d', hnext⟩ := hr.pRetest hmem
  have hu : k.pc u = .getChar := by
    generalize ho : Call.P available = o at hnext
    generalize k.pc u = pc' at hnext
    cases move_of_next hnext with
    | other pc pc' hpc hpc' o hforeign =>
        subst ho
        simp [foreign] at hforeign
    | getChar pc hpc => rfl
    | _ => cases ho
  obtain rfl := alone hr hin hnil hu
  simp [hnil] at hmem

theorem runs_sound (hclean : Unmarked input) (hvalue : initialValue available = 0)
    (hr : Runs client .out (Data.new input) initialValue k) : Sound input k.pc k.data := by
  refine hr.program_invariant (I := Sound input) start_of_fork (.new input) ?_ ?_
  · intro k a o pc d hr hi hnil hnext
    refine hi.move (move_of_next hnext) (fun hin u hu => alone hr hin hnil hu) ?_
    intro hpc
    have hle := asked_le_read hr hvalue (by rw [hpc]; rfl) hnil
    have hasking := hi.asking ⟨_, hpc⟩
    omega
  · intro k a sems d hr hi hhandler
    rcases handler_cases hhandler with ⟨c, rest, hmark, hinput, -, rfl⟩ | ⟨rfl, -⟩
    · have hwhole := hi.whole
      rw [hinput] at hwhole
      refine ⟨?_, hi.buffered.poll hmark (hwhole ▸ hclean), hi.idle, hi.asking⟩
      simpa using hwhole
    · exact hi

/-! ## With a byte behind 0xFF -/

/-- The main thread is in its own code under `ReadLock`, and nobody waits for input. -/
structure Ready (k : Kernel Pc Data) : Prop where
  current : k.currentThread = 0
  stack : k.stack 0 = []
  pc : k.pc 0 = .locked
  level : k.level = .intOn
  queue : k.queue (.semaphore available) = []

/-- Time passes, and the console reads a byte. -/
theorem Ready.poll (h : Ready k) {c : Byte} {rest : List Byte} (hmark : k.data.incoming = mark)
    (hinput : k.data.input = c :: rest) :
    ∃ k', Reachable (step client) k k' ∧ Ready k' ∧
      k'.data = { k.data with input := rest, incoming := c, read := k.data.read ++ [c] } ∧
        k'.value available = Int.bmod (k.value available + 1) (2 ^ 32) := by
  have hEOF : k.data.incoming.toInt = EOF := by
    rw [hmark]
    rfl
  have hrun : ∃ k', runFrom (step client) k
      [.act (.other .oneTick), .go, .interrupt (.poll true), .go] = .ok k' ∧ Ready k' ∧
        k'.data = { k.data with input := rest, incoming := c, read := k.data.read ++ [c] } ∧
          k'.value available = Int.bmod (k.value available + 1) (2 ^ 32) := by
    simp [runFrom, step, act, h.current, h.stack, h.pc, client, next, Data.underLock, foreign, exec,
      Call.isPublic, resume, handle, Data.checkCharAvail, hEOF, hinput, vBody, wakeOne,
        remove, h.queue]
    exact ⟨rfl, by simp, by simp, rfl, h.queue⟩
  obtain ⟨k', hk', hready⟩ := hrun
  exact ⟨k', ⟨_, hk'⟩, hready⟩

/-- The thread calls `GetChar`, which does not have to wait. -/
theorem Ready.take (h : Ready k) (hvalue : k.value available ≠ 0) :
    ∃ k', Reachable (step client) k k' ∧ Ready k' ∧
      k'.data = { k.data with
        incoming := mark
        got := k.data.got ++ [k.data.incoming]
        asked := k.data.asked ++ [0] } ∧
          k'.value available = Int.bmod (k.value available - 1) (2 ^ 32) := by
  have hrun : ∃ k', runFrom (step client) k
      [.act .getChar, .go, .go, .go, .act (.other .oneTick), .go, .go] = .ok k' ∧ Ready k' ∧
        k'.data = { k.data with
          incoming := mark
          got := k.data.got ++ [k.data.incoming]
          asked := k.data.asked ++ [0] } ∧
            k'.value available = Int.bmod (k.value available - 1) (2 ^ 32) := by
    simp [runFrom, step, act, h.current, h.stack, h.pc, h.level, client, next, Data.underLock,
      Data.take, foreign, exec, Call.isPublic, resume, semP, pLoop, hvalue, setLevel]
    exact ⟨rfl, by simp, by simp, rfl, h.queue⟩
  obtain ⟨k', hk', hready⟩ := hrun
  exact ⟨k', ⟨_, hk'⟩, hready⟩

/-- The main thread has called `ReadLock->Acquire`. -/
theorem ready_start (input : List Byte) (initialValue : ℕ → ℤ) :
    ∃ k, Runs client .out (Data.new input) initialValue k ∧ Ready k ∧ k.data = Data.new input ∧
      k.value = initialValue := by
  have hrun : ∃ k, runFrom (step client) (init .out (Data.new input) initialValue)
      [.act .acquire, .go, .go, .go, .go] = .ok k ∧ Ready k ∧ k.data = Data.new input ∧
        k.value = initialValue := by
    simp [runFrom, step, act, init, client, next, exec, Call.isPublic, resume, acquire, acquireLoop,
      assertThen, setLevel]
    exact ⟨rfl, by simp, by simp, rfl, rfl⟩
  obtain ⟨k, hk, hready⟩ := hrun
  exact ⟨k, ⟨_, hk⟩, hready⟩

/-- Every byte is read and returned at once. -/
theorem Ready.echo (h : Ready k) {xs rest : List Byte} (hmark : k.data.incoming = mark)
    (hinput : k.data.input = xs ++ rest) (hvalue : k.value available = 0) :
    ∃ k', Reachable (step client) k k' ∧ Ready k' ∧ k'.data.incoming = mark ∧ k'.data.input = rest ∧
      k'.data.read = k.data.read ++ xs ∧ k'.data.got = k.data.got ++ xs ∧
        k'.value available = 0 := by
  induction xs generalizing k with
  | nil => exact ⟨k, .refl _ _, h, hmark, hinput, by simp, by simp, hvalue⟩
  | cons x xs ih =>
      obtain ⟨k₁, hr₁, h₁, hd₁, hv₁⟩ := h.poll hmark hinput
      obtain ⟨k₂, hr₂, h₂, hd₂, hv₂⟩ := h₁.take (by rw [hv₁, hvalue]; decide)
      rw [hd₁] at hd₂
      obtain ⟨k₃, hr₃, h₃, hmark₃, hinput₃, hread₃, hgot₃, hv₃⟩ :=
        ih h₂ (by rw [hd₂]) (by rw [hd₂]; rfl) (by rw [hv₂, hv₁, hvalue]; decide)
      refine ⟨k₃, (hr₁.trans hr₂).trans hr₃, h₃, hmark₃, hinput₃, ?_, ?_, hv₃⟩
      · simp [hread₃, hd₂]
      · simp [hgot₃, hd₂]

/-- The byte 0xFF is read over. -/
theorem Ready.overrun (h : Ready k) {b : Byte} {rest : List Byte} (hmark : k.data.incoming = mark)
    (hinput : k.data.input = mark :: b :: rest) (hvalue : k.value available = 0) :
    ∃ k', Reachable (step client) k k' ∧ Ready k' ∧ k'.data.incoming = b ∧
      k'.data.read = k.data.read ++ [mark, b] ∧ k'.data.got = k.data.got ∧
        k'.value available ≠ 0 := by
  obtain ⟨k₁, hr₁, h₁, hd₁, hv₁⟩ := h.poll hmark hinput
  obtain ⟨k₂, hr₂, h₂, hd₂, hv₂⟩ := h₁.poll (by rw [hd₁]) (by rw [hd₁])
  refine ⟨k₂, hr₁.trans hr₂, h₂, by rw [hd₂], by simp [hd₂, hd₁], by rw [hd₂, hd₁], ?_⟩
  rw [hv₂, hv₁, hvalue]
  decide

/-- A byte 0xFF before another byte. -/
theorem exists_before {l : List Byte} {b : Byte} (hb : b ∈ l) (hne : b ≠ mark) :
    ∃ xs c rest, mark :: l = xs ++ mark :: c :: rest ∧ c ≠ mark := by
  induction l with
  | nil => cases hb
  | cons a l ih =>
      by_cases ha : a = mark
      · have hb' : b ∈ l := (List.mem_cons.1 hb).resolve_left fun heq => hne (heq.trans ha)
        obtain ⟨xs, c, rest, hl, hc⟩ := ih hb'
        exact ⟨mark :: xs, c, rest, by rw [ha, hl, List.cons_append], hc⟩
      · exact ⟨[], a, l, rfl, ha⟩

theorem exists_of_not_unmarked {input : List Byte} (h : ¬ Unmarked input) :
    ∃ xs b rest, input = xs ++ mark :: b :: rest ∧ b ≠ mark := by
  induction input with
  | nil => exact absurd List.Pairwise.nil h
  | cons a l ih =>
      by_cases hl : Unmarked l
      · have hbad : ¬ ∀ b ∈ l, a = mark → b = mark :=
          fun hall => h (List.pairwise_cons.2 ⟨hall, hl⟩)
        simp only [not_forall] at hbad
        obtain ⟨b, hb, rfl, hne⟩ := hbad
        exact exists_before hb hne
      · obtain ⟨xs, b, rest, rfl, hb⟩ := ih hl
        exact ⟨a :: xs, b, rest, rfl, hb⟩

/-- A byte behind 0xFF is returned in its place. -/
theorem not_faithful {input : List Byte} (h : ¬ Unmarked input)
    (hvalue : initialValue available = 0) :
    ∃ k, Runs client .out (Data.new input) initialValue k ∧ ¬ k.data.got <+: k.data.read := by
  obtain ⟨xs, b, rest, rfl, hb⟩ := exists_of_not_unmarked h
  obtain ⟨k₀, hr₀, h₀, hd₀, hv₀⟩ := ready_start (xs ++ mark :: b :: rest) initialValue
  obtain ⟨k₁, hr₁, h₁, hmark₁, hinput₁, hread₁, hgot₁, hv₁⟩ :=
    h₀.echo (by rw [hd₀]; rfl) (by rw [hd₀]; rfl) (by rw [hv₀, hvalue])
  obtain ⟨k₂, hr₂, h₂, hlast₂, hread₂, hgot₂, hv₂⟩ := h₁.overrun hmark₁ hinput₁ hv₁
  obtain ⟨k₃, hr₃, h₃, hd₃, -⟩ := h₂.take hv₂
  refine ⟨k₃, ((Reachable.trans hr₀ hr₁).trans hr₂).trans hr₃, ?_⟩
  have hread : k₃.data.read = xs ++ [mark, b] := by
    simp [hd₃, hread₂, hread₁, hd₀, Data.new]
  have hgot : k₃.data.got = xs ++ [b] := by
    simp [hd₃, hlast₂, hgot₂, hgot₁, hd₀, Data.new]
  rw [hread, hgot, List.prefix_append_right_inj, List.cons_prefix_cons]
  exact fun hprefix => hb hprefix.1

/-- What `GetChar` returns is a prefix of the bytes that have been read from the file, in every run,
if and only if no other byte follows the byte 0xFF in the file. -/
theorem console_input_faithful_iff (input : List Byte) :
    (∀ initialValue k, Runs client .out (Data.new input)
      (Function.update initialValue available 0) k →
      k.data.got <+: k.data.read) ↔ Unmarked input := by
  constructor
  · intro hall
    by_contra hmarked
    obtain ⟨k, hr, hbad⟩ := not_faithful hmarked (Function.update_self available 0 fun _ => (0 : ℤ))
    exact hbad (hall _ k hr)
  · intro hclean initialValue k hr
    exact (runs_sound hclean (Function.update_self ..) hr).buffered.isPrefix

/-- The bytes 0xFF and 97 have been read before the first call of `GetChar`, which returns 97. -/
theorem console_input_overruns :
    ∃ k, Runs client .out (Data.new [0xFF, 97]) (Function.update (fun _ => 0) available 0) k ∧
      k.data.read = [0xFF, 97] ∧ k.data.got = [97, 0xFF] ∧ ¬ k.data.got <+: k.data.read := by
  have hpass : passes (step client)
      (init .out (Data.new [0xFF, 97]) (Function.update (fun _ => 0) available 0))
      [.act .acquire, .go, .go, .go, .go,
        .act (.other .oneTick), .go, .interrupt (.poll true), .go,
        .act (.other .oneTick), .go, .interrupt (.poll true), .go,
        .act .getChar, .go, .go, .go, .act .getChar, .go, .go, .go, .act .release]
      (fun k => k.data.read = [0xFF, 97] && k.data.got = [97, 0xFF]) = true := by
    decide +kernel
  obtain ⟨k, hk, hend⟩ := exists_of_passes _ hpass
  rw [Bool.and_eq_true, decide_eq_true_eq, decide_eq_true_eq] at hend
  refine ⟨k, hk, hend.1, hend.2, ?_⟩
  rw [hend.1, hend.2]
  decide

end ConsoleInput

end Nachos
