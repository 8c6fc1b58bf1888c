import Nachos.Lib.Agenda
import Nachos.Lib.Run
import Nachos.Threads.Kernel
import Nachos.Threads.SortedList

/-!
# Simulated interrupts

`Schedule` puts an interrupt on a sorted list under the time at which it is to occur. Time goes
forward in `OneTick` and, when no thread can run, in `Idle`; both call `CheckIfDue` until it finds
nothing to fire. One step of the machine is one such call, together with the handler that it
invokes, and a handler is known by what it does here: its calls of `Schedule`, and whether it asks
for a switch.

The machine shows an `Agenda`, and every step of it is a sequence of moves of the agenda. All
integers are 32 bits wide, so the time of an interrupt can wrap around; as long as it does not,
interrupts fire when they should and in the order of time.
-/

namespace Nachos

open Lib

inductive MachineStatus where
  | idleMode
  | systemMode
  | userMode
  deriving DecidableEq, Repr

inductive IntType where
  | timerInt
  | diskInt
  | consoleWriteInt
  | consoleReadInt
  | networkSendInt
  | networkRecvInt
  deriving DecidableEq, Repr

structure PendingInterrupt where
  handler : ℕ
  arg : ℤ
  when : ℤ
  type : IntType

/-- The arguments of a call of `Schedule`. -/
structure IntRequest where
  handler : ℕ
  arg : ℤ
  fromNow : ℤ
  type : IntType

/-- What a handler does: its calls of `Schedule`, and whether it calls `YieldOnReturn`. -/
structure Reaction where
  requests : List IntRequest
  yields : Bool

/-- Where the machine is: outside of the interrupt simulation, in the loop of `OneTick`, at the
first call of `CheckIfDue` in `Idle`, in the loop of `Idle`, or behind `Halt`. -/
inductive TickPhase where
  | outside
  | oneTick
  | idle
  | idleLoop
  | halted
  deriving DecidableEq, Repr

/-- An interrupt that has been fired, and `totalTicks` at that time. -/
structure Firing where
  interrupt : ℕ
  toOccur : PendingInterrupt
  clock : ℤ

/-- The members of `Interrupt` and the ticks of `Statistics`. The `PendingInterrupt` objects are
numbered in the order in which they are made, and `fired` is a history variable. -/
structure Interrupts where
  level : IntStatus
  pending : SortedList ℕ
  inHandler : Bool
  yieldOnReturn : Bool
  status : MachineStatus
  interrupt : ℕ → PendingInterrupt
  /-- The number of interrupts that have been scheduled. -/
  scheduled : ℕ
  totalTicks : ℤ
  idleTicks : ℤ
  systemTicks : ℤ
  userTicks : ℤ
  phase : TickPhase
  fired : List Firing

namespace Interrupts

/-- Why a step is not made. -/
inductive Fault where
  | disabled
  | assertion
  | list (f : ListFault)
  deriving DecidableEq

def systemTick : ℤ := 10

def userTick : ℤ := 1

/-- The value of an `int`. -/
def int32 (x : ℤ) : ℤ := Int.bmod x (2 ^ 32)

/-- The constructors of `Interrupt` and `Statistics`. -/
def init : Interrupts where
  level := .intOff
  pending := .new
  inHandler := false
  yieldOnReturn := false
  status := .systemMode
  interrupt _ := ⟨0, 0, 0, .timerInt⟩
  scheduled := 0
  totalTicks := 0
  idleTicks := 0
  systemTicks := 0
  userTicks := 0
  phase := .outside
  fired := []

/-- `Interrupt::ChangeLevel`. -/
def changeLevel (m : Interrupts) (now : IntStatus) : Interrupts := { m with level := now }

def tickLength (m : Interrupts) : ℤ := if m.status = .systemMode then systemTick else userTick

/-- `totalTicks` after a tick. -/
def tick (m : Interrupts) : ℤ := int32 (m.totalTicks + m.tickLength)

/-- `Interrupt::OneTick` up to its loop. -/
def oneTick (m : Interrupts) : Interrupts :=
  let m₁ :=
    if m.status = .systemMode then
      { m with totalTicks := m.tick, systemTicks := int32 (m.systemTicks + systemTick) }
    else
      { m with totalTicks := m.tick, userTicks := int32 (m.userTicks + userTick) }
  { m₁.changeLevel .intOff with phase := .oneTick }

/-- `OneTick` after its loop, up to its call of `Yield`. -/
def finishTick (m : Interrupts) : Interrupts :=
  let m₁ := { m.changeLevel .intOn with phase := .outside }
  if m₁.yieldOnReturn then { m₁ with yieldOnReturn := false, status := .systemMode } else m₁

/-- `Interrupt::SetLevel`. -/
def setLevel (m : Interrupts) (now : IntStatus) : Except Fault Interrupts :=
  if now = .intOff ∨ m.inHandler = false then
    if now = .intOn ∧ m.level = .intOff then
      .ok (m.changeLevel now).oneTick
    else
      .ok (m.changeLevel now)
  else
    .error .assertion

/-- `Interrupt::Schedule`. -/
def schedule (m : Interrupts) (r : IntRequest) : Except Fault Interrupts :=
  let when := int32 (m.totalTicks + r.fromNow)
  let toOccur := m.scheduled
  if 0 < r.fromNow then
    match m.pending.sortedInsert (some toOccur) when with
    | .error e => .error (.list e)
    | .ok l => .ok { m with
        interrupt := Function.update m.interrupt toOccur ⟨r.handler, r.arg, when, r.type⟩
        scheduled := m.scheduled + 1
        pending := l }
  else
    .error .assertion

def scheduleAll : List IntRequest → Interrupts → Except Fault Interrupts
  | [], m => .ok m
  | r :: rs, m =>
      match m.schedule r with
      | .error e => .error e
      | .ok m' => scheduleAll rs m'

/-- A handler runs. `YieldOnReturn` may be called in a handler only. -/
def handle (m : Interrupts) (reaction : Reaction) : Except Fault Interrupts :=
  match scheduleAll reaction.requests m with
  | .error e => .error e
  | .ok m' =>
      if reaction.yields then
        if m'.inHandler then .ok { m' with yieldOnReturn := true } else .error .assertion
      else
        .ok m'

/-- `CheckIfDue` from `inHandler = TRUE` on. -/
def fire (m : Interrupts) (toOccur : ℕ) (reaction : Reaction) : Except Fault (Bool × Interrupts) :=
  match handle { m with
      inHandler := true
      status := .systemMode
      fired := m.fired ++ [⟨toOccur, m.interrupt toOccur, m.totalTicks⟩] } reaction with
  | .error e => .error e
  | .ok m' => .ok (true, { m' with status := m.status, inHandler := false })

/-- `pending->SortedInsert(toOccur, when); return FALSE;`. -/
def putBack (m : Interrupts) (toOccur : ℕ) (when : ℤ) : Except Fault (Bool × Interrupts) :=
  match m.pending.sortedInsert (some toOccur) when with
  | .error e => .error (.list e)
  | .ok l => .ok (false, { m with pending := l })

/-- `CheckIfDue` from the test for `IdleMode` on. -/
def fireOrQuit (m : Interrupts) (toOccur : ℕ) (when : ℤ) (reaction : Reaction) :
    Except Fault (Bool × Interrupts) :=
  if m.status = .idleMode ∧ (m.interrupt toOccur).type = .timerInt ∧ m.pending.isEmpty = true then
    m.putBack toOccur when
  else
    m.fire toOccur reaction

/-- `Interrupt::CheckIfDue`. -/
def checkIfDue (m : Interrupts) (advanceClock : Bool) (reaction : Reaction) :
    Except Fault (Bool × Interrupts) :=
  if m.level = .intOff then
    match m.pending.sortedRemove with
    | (some toOccur, some when, l) =>
        if advanceClock = true ∧ m.totalTicks < when then
          fireOrQuit { m with
            pending := l
            idleTicks := int32 (m.idleTicks + (when - m.totalTicks))
            totalTicks := when } toOccur when reaction
        else if m.totalTicks < when then
          putBack { m with pending := l } toOccur when
        else
          fireOrQuit { m with pending := l } toOccur when reaction
    | _ => .ok (false, m)
  else
    .error .assertion

/-- What happens next. `schedule`, `setLevel`, `oneTick`, `idle` and `setStatus` are calls from
outside; `check` is the next call of `CheckIfDue` in `OneTick` or `Idle`, and the handler that it
invokes, if any. -/
inductive Event where
  | schedule (r : IntRequest)
  | setLevel (now : IntStatus)
  | oneTick
  | idle
  | setStatus (st : MachineStatus)
  | check (reaction : Reaction)

/-- What the caller of `CheckIfDue` does with the answer. -/
def goOn (m : Interrupts) (answer : Bool) : Interrupts :=
  match m.phase, answer with
  | .oneTick, false => m.finishTick
  | .idle, true => { m with phase := .idleLoop }
  | .idle, false => { m with phase := .halted }
  | .idleLoop, false => { m with yieldOnReturn := false, status := .systemMode, phase := .outside }
  | _, _ => m

/-- The next call of `CheckIfDue`: the first one of `Idle` advances the clock. -/
def check (m : Interrupts) (reaction : Reaction) : Except Fault Interrupts :=
  if m.phase = .outside ∨ m.phase = .halted then
    .error .disabled
  else
    match m.checkIfDue (m.phase = .idle) reaction with
    | .error e => .error e
    | .ok (answer, m') => .ok (m'.goOn answer)

/-- Nothing but `Idle` sets the status to `IdleMode`. -/
def step (m : Interrupts) : Event → Except Fault Interrupts
  | .check reaction => m.check reaction
  | ev =>
      if m.phase = .outside then
        match ev with
        | .schedule r => m.schedule r
        | .setLevel now => m.setLevel now
        | .oneTick => .ok m.oneTick
        | .idle => .ok { m with status := .idleMode, phase := .idle }
        | .setStatus st => if st = .idleMode then .error .disabled else .ok { m with status := st }
        | .check _ => .error .disabled
      else
        .error .disabled

/-! ## What the machine shows -/

/-- The agenda of the machine. -/
structure Shows (m : Interrupts) (A : Agenda) : Prop where
  pending : m.pending.Holds A.entries
  now : A.now = m.totalTicks
  next : A.next = m.scheduled
  fired : A.fired = m.fired.map fun f => (⟨f.interrupt, f.toOccur.when⟩, f.clock)
  time : ∀ e ∈ A.entries, e.item < m.scheduled ∧ (m.interrupt e.item).when = e.key

theorem shows_init : init.Shows .empty :=
  ⟨SortedList.holds_new, rfl, rfl, rfl, by simp [Agenda.empty]⟩

/-- The members that the handlers leave as they are. -/
structure Keeps (m m' : Interrupts) : Prop where
  level : m'.level = m.level
  status : m'.status = m.status
  phase : m'.phase = m.phase
  totalTicks : m'.totalTicks = m.totalTicks
  idleTicks : m'.idleTicks = m.idleTicks
  systemTicks : m'.systemTicks = m.systemTicks
  userTicks : m'.userTicks = m.userTicks

theorem Keeps.rfl (m : Interrupts) : m.Keeps m :=
  ⟨.refl _, .refl _, .refl _, .refl _, .refl _, .refl _, .refl _⟩

theorem Keeps.trans {m m' m'' : Interrupts} (h : m.Keeps m') (h' : m'.Keeps m'') : m.Keeps m'' :=
  ⟨h'.level.trans h.level, h'.status.trans h.status, h'.phase.trans h.phase,
    h'.totalTicks.trans h.totalTicks, h'.idleTicks.trans h.idleTicks,
    h'.systemTicks.trans h.systemTicks, h'.userTicks.trans h.userTicks⟩

variable {m m' : Interrupts} {A : Agenda} {reaction : Reaction}

theorem Shows.schedule (h : m.Shows A) {r : IntRequest} (hpos : 0 < r.fromNow) :
    ∃ m', m.schedule r = .ok m' ∧ m'.Shows (A.add (int32 (m.totalTicks + r.fromNow))) ∧
      m.Keeps m' ∧ m'.inHandler = m.inHandler := by
  obtain ⟨l, hok, hl⟩ := h.pending.sortedInsert ⟨m.scheduled, int32 (m.totalTicks + r.fromNow)⟩
  refine ⟨{ m with
      interrupt := Function.update m.interrupt m.scheduled
        ⟨r.handler, r.arg, int32 (m.totalTicks + r.fromNow), r.type⟩
      scheduled := m.scheduled + 1
      pending := l }, ?_, ?_, ⟨.refl _, .refl _, .refl _, .refl _, .refl _, .refl _,
        .refl _⟩, .refl _⟩
  · simp only [Interrupts.schedule, hpos, if_true]
    rw [hok]
  refine ⟨?_, h.now, congrArg (· + 1) h.next, h.fired, ?_⟩
  · rw [Agenda.add, h.next]
    exact hl
  · intro e he
    rcases mem_sortedInsert.1 he with rfl | he
    · simp [h.next]
    · obtain ⟨hlt, htime⟩ := h.time e he
      refine ⟨hlt.trans (Nat.lt_succ_self _), ?_⟩
      change (Function.update m.interrupt m.scheduled _ e.item).when = e.key
      rw [Function.update_of_ne hlt.ne, htime]

/-- The times for which a handler schedules its interrupts. -/
def times (now : ℤ) (rs : List IntRequest) : List ℤ := rs.map fun r => int32 (now + r.fromNow)

theorem Shows.scheduleAll (h : m.Shows A) {rs : List IntRequest} (hpos : ∀ r ∈ rs, 0 < r.fromNow) :
    ∃ m', scheduleAll rs m = .ok m' ∧ m'.Shows (A.addAll (times m.totalTicks rs)) ∧
      m.Keeps m' ∧ m'.inHandler = m.inHandler := by
  induction rs generalizing m A with
  | nil => exact ⟨m, .refl _, h, .rfl m, .refl _⟩
  | cons r rs ih =>
      obtain ⟨m₁, hok, h₁, hk₁, hin₁⟩ := h.schedule (hpos r (by simp))
      obtain ⟨m₂, hok₂, h₂, hk₂, hin₂⟩ := ih h₁ fun s hs => hpos s (by simp [hs])
      rw [hk₁.totalTicks] at h₂
      exact ⟨m₂, by rw [Interrupts.scheduleAll, hok]; exact hok₂, h₂, hk₁.trans hk₂,
        hin₂.trans hin₁⟩

/-- A failed assertion of `Schedule` is the only way for the handlers to stop the machine. -/
theorem pos_of_scheduleAll {rs : List IntRequest} (hok : scheduleAll rs m = .ok m') :
    ∀ r ∈ rs, 0 < r.fromNow := by
  induction rs generalizing m with
  | nil => simp
  | cons r rs ih =>
      unfold scheduleAll at hok
      split at hok
      · cases hok
      · rename_i m₁ hm₁
        intro s hs
        rcases List.mem_cons.1 hs with rfl | hs
        · by_contra hnot
          simp [Interrupts.schedule, hnot] at hm₁
        · exact ih hok s hs

/-- A handler runs to its end, or one of its calls of `Schedule` fails. -/
theorem Shows.fire {e : Keyed ℕ} {es : List (Keyed ℕ)} (h : m.Shows { A with entries := es })
    (he : (m.interrupt e.item).when = e.key) (reaction : Reaction) :
    (∀ r ∈ reaction.requests, 0 < r.fromNow) ∧
        (∃ m', m.fire e.item reaction = .ok (true, m') ∧ m.Keeps m' ∧
          m'.Shows ((A.fire e es).addAll (times m.totalTicks reaction.requests))) ∨
      (¬ ∀ r ∈ reaction.requests, 0 < r.fromNow) ∧ ∃ f, m.fire e.item reaction = .error f := by
  set m₁ : Interrupts := { m with
    inHandler := true
    status := .systemMode
    fired := m.fired ++ [⟨e.item, m.interrupt e.item, m.totalTicks⟩] } with hm₁
  have h₁ : m₁.Shows (A.fire e es) := by
    refine ⟨h.pending, h.now, h.next, ?_, h.time⟩
    have hnow : A.now = m.totalTicks := h.now
    have hfired : A.fired = _ := h.fired
    simp [hm₁, Agenda.fire, hfired, hnow, he]
  have hfire : m.fire e.item reaction = match m₁.handle reaction with
      | .error f => .error f
      | .ok m' => .ok (true, { m' with status := m.status, inHandler := false }) := .refl _
  by_cases hpos : ∀ r ∈ reaction.requests, 0 < r.fromNow
  · left
    obtain ⟨m₂, hok, h₂, hk, hin⟩ := h₁.scheduleAll hpos
    have hin₂ : m₂.inHandler = true := hin
    have hhandle : m₁.handle reaction = .ok { m₂ with
        yieldOnReturn := reaction.yields || m₂.yieldOnReturn } := by
      simp only [handle, hok]
      cases reaction.yields with
      | false => rfl
      | true => rw [if_pos rfl, if_pos hin₂, Bool.true_or]
    refine ⟨hpos, _, by rw [hfire, hhandle], ?_, ?_⟩
    · exact ⟨hk.level, .refl _, hk.phase, hk.totalTicks, hk.idleTicks, hk.systemTicks, hk.userTicks⟩
    · exact ⟨h₂.pending, h₂.now, h₂.next, h₂.fired, h₂.time⟩
  · right
    refine ⟨hpos, ?_⟩
    cases hsched : Interrupts.scheduleAll reaction.requests m₁ with
    | error f => exact ⟨f, by rw [hfire, handle, hsched]⟩
    | ok m₂ => exact absurd (pos_of_scheduleAll hsched) hpos

theorem Shows.putBack {e : Keyed ℕ} {es : List (Keyed ℕ)} (h : m.Shows { A with entries := es })
    (he : e.item < m.scheduled ∧ (m.interrupt e.item).when = e.key) :
    ∃ m', m.putBack e.item e.key = .ok (false, m') ∧ m.Keeps m' ∧ m'.Shows (A.putBack e es) := by
  obtain ⟨l, hok, hl⟩ := h.pending.sortedInsert e
  refine ⟨{ m with pending := l }, ?_,
    ⟨.refl _, .refl _, .refl _, .refl _, .refl _, .refl _, .refl _⟩, hl, h.now, h.next, h.fired, ?_⟩
  · rw [Interrupts.putBack, hok]
  · intro d hd
    rcases mem_sortedInsert.1 hd with rfl | hd
    · exact he
    · exact h.time d hd

/-- The clock that `CheckIfDue` goes by: it may advance to the first pending interrupt. -/
def advance (m : Interrupts) (advanceClock : Bool) : Interrupts :=
  match m.pending.sortedRemove.2.1 with
  | none => m
  | some when =>
      if advanceClock = true ∧ m.totalTicks < when then
        { m with idleTicks := int32 (m.idleTicks + (when - m.totalTicks)), totalTicks := when }
      else
        m

/-- What `CheckIfDue` does to the agenda, and what it returns. -/
inductive Checked (m : Interrupts) (A : Agenda) (advanceClock : Bool) (reaction : Reaction) :
    Bool → Interrupts → Prop
  | nothing (he : A.entries = []) : Checked m A advanceClock reaction false m
  | early {e es m'} (he : A.entries = e :: es) (hadv : advanceClock = false) (hlt : A.now < e.key)
      (hk : m.Keeps m') (hs : m'.Shows (A.putBack e es)) :
      Checked m A advanceClock reaction false m'
  | quit {e m'} (he : A.entries = [e]) (hidle : m.status = .idleMode)
      (hk : (m.advance advanceClock).Keeps m')
      (hs : m'.Shows ((A.wait (m.advance advanceClock).totalTicks).putBack e [])) :
      Checked m A advanceClock reaction false m'
  | fired {e es m'} (he : A.entries = e :: es) (hdue : e.key ≤ (m.advance advanceClock).totalTicks)
      (hpos : ∀ r ∈ reaction.requests, 0 < r.fromNow) (hk : (m.advance advanceClock).Keeps m')
      (hs : m'.Shows (((A.wait (m.advance advanceClock).totalTicks).fire e es).addAll
        (times (m.advance advanceClock).totalTicks reaction.requests))) :
      Checked m A advanceClock reaction true m'

theorem advance_eq (m : Interrupts) (adv : Bool) :
    ∃ i t, m.advance adv = { m with idleTicks := i, totalTicks := t } := by
  unfold advance
  split
  · exact ⟨_, _, .refl _⟩
  · split <;> exact ⟨_, _, .refl _⟩

/-- From the test for `IdleMode` on, when the clock has been advanced. -/
theorem Shows.fireOrQuit {e : Keyed ℕ} {es : List (Keyed ℕ)} {l : SortedList ℕ} (h : m.Shows A)
    (adv : Bool) (reaction : Reaction) (he : A.entries = e :: es) (hl : l.Holds es)
    (hdue : e.key ≤ (m.advance adv).totalTicks) :
    (∃ b m', Interrupts.fireOrQuit { m.advance adv with pending := l } e.item e.key reaction =
          .ok (b, m') ∧ Checked m A adv reaction b m') ∨
      (¬ ∀ r ∈ reaction.requests, 0 < r.fromNow) ∧
        ∃ f, Interrupts.fireOrQuit { m.advance adv with pending := l } e.item e.key reaction =
          .error f := by
  obtain ⟨i, t, hadv⟩ := m.advance_eq adv
  have htime := h.time
  rw [he] at htime
  have h₁ : Shows { m.advance adv with pending := l }
      { A.wait (m.advance adv).totalTicks with entries := es } := by
    rw [hadv]
    exact ⟨hl, .refl _, h.next, h.fired, fun d hd => htime d (List.mem_cons_of_mem e hd)⟩
  have hitem : e.item < (m.advance adv).scheduled ∧
      ((m.advance adv).interrupt e.item).when = e.key := by
    rw [hadv]
    exact htime e List.mem_cons_self
  have hstatus : (m.advance adv).status = m.status := by rw [hadv]
  have hk₁ : (m.advance adv).Keeps { m.advance adv with pending := l } :=
    ⟨.refl _, .refl _, .refl _, .refl _, .refl _, .refl _, .refl _⟩
  unfold Interrupts.fireOrQuit
  split
  · rename_i hquit
    obtain ⟨m', hok, hk, hs⟩ := h₁.putBack hitem
    obtain rfl : es = [] := hl.isEmpty_iff.1 hquit.2.2
    exact .inl ⟨false, m', hok, .quit he (hstatus ▸ hquit.1) (hk₁.trans hk) hs⟩
  · rcases h₁.fire hitem.2 reaction with ⟨hpos, m', hok, hk, hs⟩ | hnot
    · exact .inl ⟨true, m', hok, .fired he hdue hpos (hk₁.trans hk) hs⟩
    · exact .inr hnot

/-- `CheckIfDue` returns, or a call of `Schedule` in the handler fails. -/
theorem Shows.checkIfDue (h : m.Shows A) (hlevel : m.level = .intOff) (adv : Bool)
    (reaction : Reaction) :
    (∃ b m', m.checkIfDue adv reaction = .ok (b, m') ∧ Checked m A adv reaction b m') ∨
      (¬ ∀ r ∈ reaction.requests, 0 < r.fromNow) ∧ ∃ f, m.checkIfDue adv reaction = .error f := by
  cases hentries : A.entries with
  | nil =>
      have hpending := h.pending
      rw [hentries] at hpending
      refine .inl ⟨false, m, ?_, .nothing hentries⟩
      simp [Interrupts.checkIfDue, hlevel, hpending.sortedRemove_nil]
  | cons e es =>
      have hpending := h.pending
      rw [hentries] at hpending
      obtain ⟨l, hremove, hl⟩ := hpending.sortedRemove
      have hcheck := h.fireOrQuit adv reaction hentries hl
      rw [Interrupts.checkIfDue, if_pos hlevel, hremove]
      dsimp only
      by_cases hadv : adv = true ∧ m.totalTicks < e.key
      · have hm : m.advance adv = { m with
            idleTicks := int32 (m.idleTicks + (e.key - m.totalTicks))
            totalTicks := e.key } := by
          simp only [advance, hremove, hadv, and_self, if_true]
        rw [hm] at hcheck
        rw [if_pos hadv]
        exact hcheck le_rfl
      · have hm : m.advance adv = m := by
          simp only [advance, hremove, if_neg hadv]
        rw [if_neg hadv]
        by_cases hlt : m.totalTicks < e.key
        · rw [if_pos hlt]
          left
          have htime := h.time
          rw [hentries] at htime
          have h₁ : Shows { m with pending := l } { A with entries := es } :=
            ⟨hl, h.now, h.next, h.fired, fun d hd => htime d (List.mem_cons_of_mem e hd)⟩
          obtain ⟨m', hok, hk, hs⟩ := h₁.putBack (htime e List.mem_cons_self)
          have hfalse : adv = false := by
            cases adv with
            | false => rfl
            | true => exact absurd ⟨.refl _, hlt⟩ hadv
          refine ⟨false, m', hok, .early hentries hfalse (h.now ▸ hlt) ?_ hs⟩
          exact ⟨hk.level, hk.status, hk.phase, hk.totalTicks, hk.idleTicks, hk.systemTicks,
            hk.userTicks⟩
        · rw [if_neg hlt]
          rw [hm] at hcheck
          exact hcheck (not_lt.1 hlt)

theorem Shows.checked (h : m.Shows A) {adv b : Bool}
    (hok : m.checkIfDue adv reaction = .ok (b, m')) : Checked m A adv reaction b m' := by
  have hlevel : m.level = .intOff := by
    by_contra hnot
    simp [Interrupts.checkIfDue, hnot] at hok
  rcases h.checkIfDue hlevel adv reaction with ⟨b', m'', hok', hchecked⟩ | ⟨-, f, hf⟩
  · rw [hok] at hok'
    cases hok'
    exact hchecked
  · rw [hok] at hf
    cases hf

/-- The calls of `Schedule` in a step. -/
def Event.requests : Event → List IntRequest
  | .schedule r => [r]
  | .check reaction => reaction.requests
  | _ => []

/-- `totalTicks` when the handlers of a step run. -/
def clock (m : Interrupts) : Event → ℤ
  | .oneTick => m.tick
  | .setLevel now => if now = .intOn ∧ m.level = .intOff then m.tick else m.totalTicks
  | .check _ => (m.advance (m.phase = .idle)).totalTicks
  | _ => m.totalTicks

variable {T : ℤ → ℤ → Prop} {P : Agenda → ℤ → Prop} {Q : Keyed ℕ → List (Keyed ℕ) → Prop}

theorem Checked.moves {adv b : Bool} (hc : Checked m A adv reaction b m') (h : m.Shows A)
    (hT : T m.totalTicks (m.advance adv).totalTicks)
    (hP : ∀ r ∈ reaction.requests, 0 < r.fromNow → ∀ B : Agenda,
      B.now = (m.advance adv).totalTicks → P B (int32 (B.now + r.fromNow)))
    (hQ : ∀ e es, A.entries = e :: es → A.now < e.key → adv = false → Q e es)
    (hnil : ∀ e, Q e []) : ∃ A', m'.Shows A' ∧ A.Moves T P Q A' := by
  have hwait : A.Moves T P Q (A.wait (m.advance adv).totalTicks) :=
    Agenda.Moves.refl.wait (h.now.symm ▸ hT)
  cases hc with
  | nothing he => exact ⟨A, h, .refl⟩
  | early he hadv hlt hk hs => exact ⟨_, hs, Agenda.Moves.refl.putBack he (hQ _ _ he hlt hadv)⟩
  | quit he hidle hk hs => exact ⟨_, hs, hwait.putBack he (hnil _)⟩
  | fired he hdue hpos hk hs =>
      refine ⟨_, hs, (hwait.fire he hdue).addAll ?_⟩
      intro w hw B hB
      obtain ⟨r, hr, rfl⟩ := List.mem_map.1 hw
      have hadd := hP r hr (hpos r hr) B hB
      rwa [hB] at hadd

theorem Shows.congr (h : m.Shows A) (hpending : m'.pending = m.pending)
    (htotal : m'.totalTicks = m.totalTicks) (hscheduled : m'.scheduled = m.scheduled)
    (hfired : m'.fired = m.fired) (hinterrupt : m'.interrupt = m.interrupt) : m'.Shows A := by
  refine ⟨?_, ?_, ?_, ?_, ?_⟩
  · rw [hpending]
    exact h.pending
  · rw [htotal]
    exact h.now
  · rw [hscheduled]
    exact h.next
  · rw [hfired]
    exact h.fired
  · rw [hscheduled, hinterrupt]
    exact h.time

theorem Shows.goOn (h : m.Shows A) (answer : Bool) : (m.goOn answer).Shows A := by
  unfold Interrupts.goOn
  split
  · unfold finishTick
    dsimp only
    split <;> exact h.congr rfl rfl rfl rfl rfl
  · exact h.congr rfl rfl rfl rfl rfl
  · exact h.congr rfl rfl rfl rfl rfl
  · exact h.congr rfl rfl rfl rfl rfl
  · exact h

theorem Shows.oneTick (h : m.Shows A) : m.oneTick.Shows (A.wait m.tick) := by
  have hwait : Shows { m with totalTicks := m.tick } (A.wait m.tick) :=
    ⟨h.pending, rfl, h.next, h.fired, h.time⟩
  unfold Interrupts.oneTick
  dsimp only
  split <;> exact hwait.congr rfl rfl rfl rfl rfl

/-- What a step can be. -/
inductive Stepped (m : Interrupts) : Event → Interrupts → Prop
  | check {reaction answer m₁} (hp : m.phase ≠ .outside)
      (h : m.checkIfDue (m.phase = .idle) reaction = .ok (answer, m₁)) :
      Stepped m (.check reaction) (m₁.goOn answer)
  | schedule {r m'} (hp : m.phase = .outside) (hpos : 0 < r.fromNow) (h : m.schedule r = .ok m') :
      Stepped m (.schedule r) m'
  | enable (hp : m.phase = .outside) (h : m.level = .intOff) :
      Stepped m (.setLevel .intOn) (m.changeLevel .intOn).oneTick
  | setLevel {now} (hp : m.phase = .outside) (h : ¬ (now = .intOn ∧ m.level = .intOff)) :
      Stepped m (.setLevel now) (m.changeLevel now)
  | oneTick (hp : m.phase = .outside) : Stepped m .oneTick m.oneTick
  | idle (hp : m.phase = .outside) : Stepped m .idle { m with status := .idleMode, phase := .idle }
  | setStatus {st} (hp : m.phase = .outside) (h : st ≠ .idleMode) :
      Stepped m (.setStatus st) { m with status := st }

theorem stepped {ev : Event} (hok : m.step ev = .ok m') : Stepped m ev m' := by
  cases ev with
  | check reaction =>
      simp only [step, Interrupts.check] at hok
      split at hok
      · cases hok
      · rename_i hp
        split at hok
        · cases hok
        · rename_i answer m₁ hm₁
          cases hok
          exact .check (fun heq => hp (.inl heq)) hm₁
  | schedule r =>
      simp only [step] at hok
      split at hok
      · rename_i hp
        refine .schedule hp ?_ hok
        by_contra hnot
        simp [Interrupts.schedule, hnot] at hok
      · cases hok
  | setLevel now =>
      simp only [step, Interrupts.setLevel] at hok
      split at hok
      · rename_i hp
        split at hok
        · split at hok
          · rename_i hon
            obtain ⟨rfl, hlevel⟩ := hon
            cases hok
            exact .enable hp hlevel
          · rename_i hoff
            cases hok
            exact .setLevel hp hoff
        · cases hok
      · cases hok
  | oneTick =>
      simp only [step] at hok
      split at hok
      · rename_i hp
        cases hok
        exact .oneTick hp
      · cases hok
  | idle =>
      simp only [step] at hok
      split at hok
      · rename_i hp
        cases hok
        exact .idle hp
      · cases hok
  | setStatus st =>
      simp only [step] at hok
      split at hok
      · rename_i hp
        split at hok
        · cases hok
        · rename_i hst
          cases hok
          exact .setStatus hp hst
      · cases hok

/-- Every step of the machine is a sequence of moves of its agenda. -/
theorem Shows.step (h : m.Shows A) {ev : Event} (hok : m.step ev = .ok m')
    (hT : T m.totalTicks (m.clock ev))
    (hP : ∀ r ∈ ev.requests, 0 < r.fromNow → ∀ B : Agenda,
      B.now = m.clock ev → P B (int32 (B.now + r.fromNow)))
    (hQ : ∀ reaction, ev = .check reaction → m.phase ≠ .idle →
      ∀ e es, A.entries = e :: es → A.now < e.key → Q e es)
    (hnil : ∀ e, Q e []) : ∃ A', m'.Shows A' ∧ A.Moves T P Q A' := by
  cases stepped hok with
  | @check reaction answer m₁ hp hm₁ =>
      obtain ⟨A', hA', hmoves⟩ := (h.checked hm₁).moves h hT hP
        (fun e es he hlt hadv => hQ reaction rfl (of_decide_eq_false hadv) e es he hlt) hnil
      exact ⟨A', hA'.goOn answer, hmoves⟩
  | @schedule r _ hp hpos hm' =>
      obtain ⟨m₁, hm₁, hs, -, -⟩ := h.schedule hpos
      rw [hm'] at hm₁
      cases hm₁
      refine ⟨_, hs, Agenda.Moves.refl.add ?_⟩
      have hadd := hP r (by simp [Event.requests]) hpos A h.now
      rwa [h.now] at hadd
  | enable hp hlevel =>
      rw [clock, if_pos ⟨rfl, hlevel⟩] at hT
      have hon : (m.changeLevel .intOn).Shows A := h.congr rfl rfl rfl rfl rfl
      exact ⟨_, hon.oneTick, Agenda.Moves.refl.wait (h.now.symm ▸ hT)⟩
  | setLevel hp hoff => exact ⟨A, h.congr rfl rfl rfl rfl rfl, .refl⟩
  | oneTick hp => exact ⟨_, h.oneTick, Agenda.Moves.refl.wait (h.now.symm ▸ hT)⟩
  | idle hp => exact ⟨A, h.congr rfl rfl rfl rfl rfl, .refl⟩
  | setStatus hp hst => exact ⟨A, h.congr rfl rfl rfl rfl rfl, .refl⟩

end Interrupts

end Nachos
