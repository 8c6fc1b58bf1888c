import Nachos.Lib.Run
import Nachos.Userprog.BitMap
import Mathlib.Logic.Function.Basic

/-!
# The ends of pipes

How `Exec2` connects processes by pipes, how `Read2` and `Write2` find them, and when
`SysCallExit` deletes them. A pipe is known by its number, in the order in which the pipes are
made, and a thread by its own; the buffer of a pipe plays no part here.

A thread that has been made by Exec is started later, or never when the rest of Exec fails. The
constructor of `Thread` leaves the members for the pipes as they are, and only Exec sets them: what
the first thread and a thread of `Fork2` find there is an argument.
-/

namespace Nachos

open Lib

inductive PipeEnd where
  /-- The end that a process reads from. -/
  | input
  /-- The end that a process writes to. -/
  | output
  deriving DecidableEq

namespace PipeEnd

def other : PipeEnd → PipeEnd
  | input => output
  | output => input

/-- The bit of `pipeValue` for the end. -/
def bit : PipeEnd → BitVec 32
  | input => 4#32
  | output => 2#32

end PipeEnd

/-- A `Pipe`: `inOpen` and `outOpen`. -/
structure PipeFlags where
  isOpen : PipeEnd → ℤ
  deleted : Bool

/-- The members `pipeValue`, `inPipe` and `outPipe` of a `Thread`. -/
structure PipeMembers where
  pipeValue : BitVec 32
  pipe : PipeEnd → Option ℕ

def PipeMembers.HasEnd (m : PipeMembers) (e : PipeEnd) : Prop := m.pipeValue &&& e.bit = e.bit

instance (m : PipeMembers) (e : PipeEnd) : Decidable (m.HasEnd e) :=
  inferInstanceAs (Decidable (_ = _))

structure Pipes where
  flags : ℕ → PipeFlags
  /-- The pipes made so far are those below. -/
  numPipes : ℕ
  freePipe : Option ℕ
  members : ℕ → PipeMembers

namespace Pipes

/-- The pipe that a pointer leads to. -/
def deref (s : Pipes) : Option ℕ → Except Fault ℕ
  | none => .error .nullPointer
  | some q =>
      if q < s.numPipes then
        if (s.flags q).deleted then .error .useAfterFree else .ok q
      else
        .error .wildAddress

/-- `setInOpen` and `setOutOpen`. -/
def setOpen (s : Pipes) (pointer : Option ℕ) (e : PipeEnd) (value : ℤ) : Except Fault Pipes :=
  match s.deref pointer with
  | .error f => .error f
  | .ok q =>
      .ok { s with
        flags := Function.update s.flags q
          { s.flags q with isOpen := Function.update (s.flags q).isOpen e value } }

def setPipeValue (s : Pipes) (t : ℕ) (value : BitVec 32) : Pipes :=
  { s with members := Function.update s.members t { s.members t with pipeValue := value } }

/-- `setInPipe` and `setOutPipe`. -/
def setPipe (s : Pipes) (t : ℕ) (e : PipeEnd) (value : Option ℕ) : Pipes :=
  { s with
    members := Function.update s.members t
      { s.members t with pipe := Function.update (s.members t).pipe e value } }

/-- `freePipe = new Pipe(PIPE_SIZE)`. -/
def newFreePipe (s : Pipes) : Pipes :=
  { s with
    flags := Function.update s.flags s.numPipes
      { isOpen := fun _ => 0
        deleted := false }
    numPipes := s.numPipes + 1
    freePipe := some s.numPipes }

/-- The two calls that give `freePipe` to a new thread: `setInPipe(freePipe)` and
`getInPipe()->setInOpen(1)`, or those for the other end. -/
def giveEnd (s : Pipes) (t : ℕ) (e : PipeEnd) : Except Fault Pipes :=
  let s := s.setPipe t e s.freePipe
  s.setOpen ((s.members t).pipe e) e 1

/-- The two branches of `Exec2` for one end: the pipe that is pending, or a new one. -/
def connect (s : Pipes) (t : ℕ) (e : PipeEnd) : Except Fault Pipes :=
  match s.freePipe with
  | none => s.newFreePipe.giveEnd t e
  | some _ =>
      match s.giveEnd t e with
      | .error f => .error f
      | .ok s => .ok { s with freePipe := none }

/-- The branch of `Exec2` for both ends: the pending pipe and a new one. -/
def connectBoth (s : Pipes) (t : ℕ) : Except Fault Pipes :=
  match s.giveEnd t .input with
  | .error f => .error f
  | .ok s => s.newFreePipe.giveEnd t .output

/-- The `pipeValue` of `Exec2`. -/
def pipeValueOf (willJoin : BitVec 32) : BitVec 32 :=
  if willJoin &&& 2#32 = 2#32 ∨ willJoin &&& 4#32 = 4#32 ∨ willJoin &&& 6#32 = 6#32 then
    willJoin
  else
    0#32

/-- `Exec2` from `setPipeValue` to the last of `setOutPipe`, for the new thread `t`. -/
def setUp (s : Pipes) (t : ℕ) (willJoin : BitVec 32) : Except Fault Pipes :=
  let pipeValue := pipeValueOf willJoin
  let s := s.setPipeValue t pipeValue
  if pipeValue &&& 6#32 = 6#32 then
    s.connectBoth t
  else if pipeValue &&& 4#32 = 4#32 then
    s.connect t .input
  else if pipeValue &&& 2#32 = 2#32 then
    s.connect t .output
  else
    .ok s

/-- The branch of `SysCallExit` for one end. -/
def closeEnd (s : Pipes) (t : ℕ) (e : PipeEnd) : Except Fault Pipes :=
  if (s.members t).HasEnd e then
    match s.setOpen ((s.members t).pipe e) e 0 with
    | .error f => .error f
    | .ok s =>
        match s.deref ((s.members t).pipe e) with
        | .error f => .error f
        | .ok q =>
            if (s.flags q).isOpen e.other = 0 then
              .ok { s with
                flags := Function.update s.flags q { s.flags q with deleted := true } }
            else
              .ok s
  else
    .ok s

/-- `SysCallExit` up to `setJoinValue`. -/
def sysCallExit (s : Pipes) (t : ℕ) : Except Fault Pipes :=
  match s.closeEnd t .input with
  | .error f => .error f
  | .ok s => s.closeEnd t .output

/-- `Read2` reads from a pipe. -/
def ReadsPipe (m : PipeMembers) : Prop :=
  ¬ (m.pipeValue &&& 4#32 ≠ 4#32 ∧ m.pipeValue &&& 6#32 ≠ 6#32)

/-- `Write2` writes to a pipe. -/
def WritesPipe (m : PipeMembers) : Prop :=
  ¬ (m.pipeValue &&& 2#32 ≠ 2#32 ∧ m.pipeValue &&& 6#32 ≠ 6#32)

instance (m : PipeMembers) : Decidable (ReadsPipe m) := inferInstanceAs (Decidable (¬ _))

instance (m : PipeMembers) : Decidable (WritesPipe m) := inferInstanceAs (Decidable (¬ _))

end Pipes

/-! ## Ends in use

`Sound uses s` is about the ends that are in use: `uses t e` says that `t` may still come to its
end `e`. -/

namespace Pipes

variable {s s' : Pipes} {uses uses' : ℕ → PipeEnd → Prop} {t q : ℕ} {e : PipeEnd}

def Live (s : Pipes) (q : ℕ) : Prop := q < s.numPipes ∧ (s.flags q).deleted = false

/-- `t` has the end `e` of the pipe `q`. -/
def Holds (s : Pipes) (uses : ℕ → PipeEnd → Prop) (t : ℕ) (e : PipeEnd) (q : ℕ) : Prop :=
  uses t e ∧ (s.members t).pipe e = some q

structure Sound (uses : ℕ → PipeEnd → Prop) (s : Pipes) : Prop where
  held : ∀ t e, uses t e → ∃ q, (s.members t).pipe e = some q ∧ s.Live q ∧
    (s.flags q).isOpen e ≠ 0
  single : ∀ t t' e q, s.Holds uses t e q → s.Holds uses t' e q → t = t'
  pending : ∀ t t' e q, s.freePipe = some q → s.Holds uses t e q → ¬ s.Holds uses t' e.other q

theorem deref_of_live (h : s.Live q) : s.deref (some q) = .ok q := by
  simp only [deref]
  rw [if_pos h.1, h.2]
  rfl

theorem of_deref {pointer : Option ℕ} (h : s.deref pointer = .ok q) :
    pointer = some q ∧ s.Live q := by
  unfold deref at h
  split at h
  · cases h
  · split at h
    · rename_i hlt
      split at h
      · cases h
      · rename_i hdel
        cases h
        exact ⟨rfl, hlt, by simpa using hdel⟩
    · cases h

theorem Sound.mono (h : Sound uses s) (hle : ∀ t e, uses' t e → uses t e) : Sound uses' s where
  held t e ht := h.held t e (hle t e ht)
  single t t' e q ht ht' := h.single t t' e q ⟨hle t e ht.1, ht.2⟩ ⟨hle t' e ht'.1, ht'.2⟩
  pending t t' e q hq ht ht' :=
    h.pending t t' e q hq ⟨hle t e ht.1, ht.2⟩ ⟨hle t' e.other ht'.1, ht'.2⟩

theorem Sound.live_of_holds (h : Sound uses s) (ht : s.Holds uses t e q) :
    s.Live q ∧ (s.flags q).isOpen e ≠ 0 := by
  obtain ⟨q', hq', hlive, hopen⟩ := h.held t e ht.1
  cases hq'.symm.trans ht.2
  exact ⟨hlive, hopen⟩

/-- A change that the threads whose ends are in use do not see. -/
theorem Sound.frame (h : Sound uses s)
    (hmem : ∀ t e, uses t e → (s'.members t).pipe e = (s.members t).pipe e)
    (hlive : ∀ t e q, s.Holds uses t e q → s'.Live q ∧ (s'.flags q).isOpen e ≠ 0)
    (hfree : ∀ q, s'.freePipe = some q → s.freePipe = some q ∨ ¬ s.Live q) : Sound uses s' := by
  have hholds : ∀ t e q, s'.Holds uses t e q → s.Holds uses t e q := by
    intro t e q ht
    exact ⟨ht.1, (hmem t e ht.1).symm.trans ht.2⟩
  refine ⟨?_, ?_, ?_⟩
  · intro t e ht
    obtain ⟨q, hq, -⟩ := h.held t e ht
    exact ⟨q, (hmem t e ht).trans hq, hlive t e q ⟨ht, hq⟩⟩
  · intro t t' e q ht ht'
    exact h.single t t' e q (hholds t e q ht) (hholds t' e q ht')
  · intro t t' e q hq ht ht'
    rcases hfree q hq with hq | hdead
    · exact h.pending t t' e q hq (hholds t e q ht) (hholds t' e.other q ht')
    · exact hdead (h.live_of_holds (hholds t e q ht)).1

theorem Sound.setPipeValue (h : Sound uses s) (c : ℕ) (value : BitVec 32) :
    Sound uses (s.setPipeValue c value) := by
  refine h.frame ?_ (fun t e q => h.live_of_holds) fun q hq => .inl hq
  intro t e _
  show (Function.update s.members c _ t).pipe e = _
  by_cases htc : t = c
  · subst htc
    rw [Function.update_self]
  · rw [Function.update_of_ne htc]

theorem Sound.dropFree (h : Sound uses s) : Sound uses { s with freePipe := none } :=
  h.frame (fun _ _ _ => rfl) (fun _ _ _ => h.live_of_holds) (by simp)

theorem Sound.newFreePipe (h : Sound uses s) : Sound uses s.newFreePipe := by
  refine h.frame (fun _ _ _ => rfl) ?_ ?_
  · intro t e q ht
    obtain ⟨⟨hlt, hdel⟩, hopen⟩ := h.live_of_holds ht
    have hflags : s.newFreePipe.flags q = s.flags q := Function.update_of_ne (Nat.ne_of_lt hlt) _ _
    exact ⟨⟨Nat.lt_succ_of_lt hlt, hflags ▸ hdel⟩, hflags ▸ hopen⟩
  · intro q hq
    cases hq
    exact .inr fun hlive => Nat.lt_irrefl _ hlive.1

theorem live_newFreePipe (s : Pipes) : s.newFreePipe.Live s.numPipes :=
  ⟨Nat.lt_succ_self _, by simp [Pipes.newFreePipe]⟩

theorem Sound.not_holds_newFreePipe (h : Sound uses s) :
    ¬ s.newFreePipe.Holds uses t e s.numPipes := by
  intro ht
  exact Nat.lt_irrefl _ (h.live_of_holds (t := t) (e := e) ht).1.1

/-! ## Exec -/

/-- The state after `giveEnd`. -/
def withEnd (s : Pipes) (c : ℕ) (e : PipeEnd) (q : ℕ) : Pipes :=
  { s.setPipe c e (some q) with
    flags := Function.update s.flags q
      { s.flags q with isOpen := Function.update (s.flags q).isOpen e 1 } }

theorem giveEnd_eq {c : ℕ} (hfree : s.freePipe = some q) (hlive : s.Live q) :
    s.giveEnd c e = .ok (s.withEnd c e q) := by
  have hpipe : ((s.setPipe c e (some q)).members c).pipe e = some q := by simp [setPipe]
  have hderef : (s.setPipe c e (some q)).deref (some q) = .ok q := deref_of_live hlive
  simp only [giveEnd, hfree]
  rw [hpipe, setOpen, hderef]
  rfl

theorem of_giveEnd {c : ℕ} (h : s.giveEnd c e = .ok s') :
    ∃ q, s.freePipe = some q ∧ s.Live q ∧ s' = s.withEnd c e q := by
  have hpipe : ((s.setPipe c e s.freePipe).members c).pipe e = s.freePipe := by simp [setPipe]
  simp only [giveEnd, hpipe, setOpen] at h
  split at h
  · cases h
  · rename_i q hq
    obtain ⟨hfree, hlive⟩ := of_deref hq
    cases h
    rw [hfree]
    exact ⟨q, rfl, hlive, rfl⟩

theorem pipe_withEnd_of_ne {c : ℕ} {t : ℕ} {d : PipeEnd} (h : ¬ (t = c ∧ d = e)) :
    ((s.withEnd c e q).members t).pipe d = (s.members t).pipe d := by
  show (Function.update s.members c _ t).pipe d = _
  by_cases htc : t = c
  · subst htc
    rw [Function.update_self]
    exact Function.update_of_ne (fun hd => h ⟨rfl, hd⟩) _ _
  · rw [Function.update_of_ne htc]

theorem pipe_withEnd_self (s : Pipes) (c : ℕ) (e : PipeEnd) (q : ℕ) :
    ((s.withEnd c e q).members c).pipe e = some q := by
  simp [withEnd, setPipe]

theorem live_withEnd {c : ℕ} {r : ℕ} (h : s.Live r) : (s.withEnd c e q).Live r := by
  refine ⟨h.1, ?_⟩
  show (Function.update s.flags q _ r).deleted = false
  by_cases hrq : r = q
  · subst hrq
    rw [Function.update_self]
    exact h.2
  · rw [Function.update_of_ne hrq]
    exact h.2

theorem isOpen_withEnd_self (s : Pipes) (c : ℕ) (e : PipeEnd) (q : ℕ) :
    ((s.withEnd c e q).flags q).isOpen e = 1 := by
  simp [withEnd]

theorem isOpen_withEnd {c : ℕ} {r : ℕ} {d : PipeEnd} (h : (s.flags r).isOpen d ≠ 0) :
    ((s.withEnd c e q).flags r).isOpen d ≠ 0 := by
  show (Function.update s.flags q _ r).isOpen d ≠ 0
  by_cases hrq : r = q
  · subst hrq
    rw [Function.update_self]
    by_cases hde : d = e
    · subst hde
      simp
    · simpa [Function.update_of_ne hde] using h
  · rwa [Function.update_of_ne hrq]

/-- The thread `c` gets the end `e` of `q`. -/
theorem Sound.withEnd {c : ℕ} (h : Sound uses s) (hlive : s.Live q) (hc : ¬ uses c e)
    (hfree : ∀ t, ¬ s.Holds uses t e q)
    (hpend : s.freePipe = some q → ∀ t, ¬ s.Holds uses t e.other q) :
    Sound (fun t d => uses t d ∨ (t = c ∧ d = e)) (s.withEnd c e q) := by
  -- an end in use is one of the old ones or the new one
  have hholds : ∀ t d r, (s.withEnd c e q).Holds (fun t d => uses t d ∨ (t = c ∧ d = e)) t d r →
      s.Holds uses t d r ∨ (t = c ∧ d = e ∧ r = q) := by
    intro t d r ht
    by_cases hnew : t = c ∧ d = e
    · obtain ⟨rfl, rfl⟩ := hnew
      have hr := (pipe_withEnd_self s t d q).symm.trans ht.2
      exact .inr ⟨rfl, rfl, (Option.some.inj hr).symm⟩
    · refine .inl ⟨ht.1.resolve_right hnew, ?_⟩
      rw [← pipe_withEnd_of_ne hnew]
      exact ht.2
  refine ⟨?_, ?_, ?_⟩
  · intro t d ht
    by_cases hnew : t = c ∧ d = e
    · obtain ⟨rfl, rfl⟩ := hnew
      refine ⟨q, pipe_withEnd_self s t d q, live_withEnd hlive, ?_⟩
      rw [isOpen_withEnd_self]
      decide
    · obtain ⟨r, hr, hlive', hopen⟩ := h.held t d (ht.resolve_right hnew)
      exact ⟨r, (pipe_withEnd_of_ne hnew).trans hr, live_withEnd hlive', isOpen_withEnd hopen⟩
  · intro t t' d r ht ht'
    rcases hholds t d r ht with hold | ⟨rfl, rfl, rfl⟩
    · rcases hholds t' d r ht' with hold' | ⟨rfl, rfl, rfl⟩
      · exact h.single t t' d r hold hold'
      · exact absurd hold (hfree t)
    · rcases hholds t' d r ht' with hold' | ⟨rfl, -, -⟩
      · exact absurd hold' (hfree t')
      · rfl
  · intro t t' d r hr ht ht'
    rcases hholds t d r ht with hold | ⟨rfl, rfl, rfl⟩
    · rcases hholds t' d.other r ht' with hold' | ⟨rfl, rfl, rfl⟩
      · exact h.pending t t' d r hr hold hold'
      · refine hpend hr t ?_
        cases d <;> exact hold
    · rcases hholds t' d.other r ht' with hold' | ⟨-, hd, -⟩
      · exact hpend hr t' hold'
      · cases d <;> cases hd

/-- The pending pipe, if there is one, has a thread at the end that is not `e`. -/
def Ready (s : Pipes) (uses : ℕ → PipeEnd → Prop) (e : PipeEnd) : Prop :=
  ∀ q, s.freePipe = some q → ∃ t, s.Holds uses t e.other q

/-- The thread at the other end keeps the pending pipe alive, and is alone with it. -/
theorem Sound.of_ready (h : Sound uses s) (hready : s.Ready uses e) (hfree : s.freePipe = some q) :
    s.Live q ∧ ∀ t, ¬ s.Holds uses t e q := by
  obtain ⟨t', ht'⟩ := hready q hfree
  exact ⟨(h.live_of_holds ht').1, fun t ht => h.pending t t' e q hfree ht ht'⟩

theorem members_withEnd (s : Pipes) (c : ℕ) (e : PipeEnd) (q : ℕ) :
    ((s.withEnd c e q).members c).pipeValue = (s.members c).pipeValue ∧
      ∀ t ≠ c, (s.withEnd c e q).members t = s.members t := by
  refine ⟨by simp [Pipes.withEnd, setPipe], ?_⟩
  intro t ht
  exact Function.update_of_ne ht _ _

theorem Sound.giveNew {c : ℕ} (h : Sound uses s) (hc : ¬ uses c e) :
    s.newFreePipe.giveEnd c e = .ok (s.newFreePipe.withEnd c e s.numPipes) ∧
      Sound (fun t d => uses t d ∨ (t = c ∧ d = e)) (s.newFreePipe.withEnd c e s.numPipes) :=
  ⟨giveEnd_eq rfl (live_newFreePipe s), h.newFreePipe.withEnd (live_newFreePipe s) hc
    (fun _ => h.not_holds_newFreePipe) fun _ _ => h.not_holds_newFreePipe⟩

theorem and_four (x : BitVec 32) : x &&& 4#32 = if x.getLsbD 2 then 4#32 else 0#32 :=
  BitVec.and_twoPow x 2

theorem and_two (x : BitVec 32) : x &&& 2#32 = if x.getLsbD 1 then 2#32 else 0#32 :=
  BitVec.and_twoPow x 1

theorem and_six (x : BitVec 32) : x &&& 6#32 = x &&& 4#32 ||| x &&& 2#32 := by
  rw [← BitVec.and_or_distrib_left]
  rfl

theorem and_six_eq_six (x : BitVec 32) :
    x &&& 6#32 = 6#32 ↔ x &&& 4#32 = 4#32 ∧ x &&& 2#32 = 2#32 := by
  rw [and_six, and_four, and_two]
  cases x.getLsbD 2 <;> cases x.getLsbD 1 <;> decide

theorem and_six_eq_zero (x : BitVec 32) :
    x &&& 6#32 = 0#32 ↔ x &&& 4#32 ≠ 4#32 ∧ x &&& 2#32 ≠ 2#32 := by
  rw [and_six, and_four, and_two]
  cases x.getLsbD 2 <;> cases x.getLsbD 1 <;> decide

theorem pipeValueOf_bit (willJoin : BitVec 32) (e : PipeEnd) :
    pipeValueOf willJoin &&& e.bit = e.bit ↔ willJoin &&& e.bit = e.bit := by
  unfold pipeValueOf
  split
  · rfl
  · rename_i h
    cases e with
    | input => exact iff_of_false (by decide) fun hbit => h (.inr (.inl hbit))
    | output => exact iff_of_false (by decide) fun hbit => h (.inl hbit)

theorem pipeValueOf_six (willJoin : BitVec 32) :
    pipeValueOf willJoin &&& 6#32 = 6#32 ↔ willJoin &&& 6#32 = 6#32 := by
  rw [and_six_eq_six, and_six_eq_six]
  exact and_congr (pipeValueOf_bit willJoin .input) (pipeValueOf_bit willJoin .output)

/-- The bits of `pipeValue` are those of `willJoin`. -/
theorem setUp_eq (s : Pipes) (c : ℕ) (willJoin : BitVec 32) :
    s.setUp c willJoin =
      if willJoin &&& 6#32 = 6#32 then
        (s.setPipeValue c (pipeValueOf willJoin)).connectBoth c
      else if willJoin &&& 4#32 = 4#32 then
        (s.setPipeValue c (pipeValueOf willJoin)).connect c .input
      else if willJoin &&& 2#32 = 2#32 then
        (s.setPipeValue c (pipeValueOf willJoin)).connect c .output
      else
        .ok (s.setPipeValue c (pipeValueOf willJoin)) := by
  have hin : pipeValueOf willJoin &&& 4#32 = 4#32 ↔ _ := pipeValueOf_bit willJoin .input
  have hout : pipeValueOf willJoin &&& 2#32 = 2#32 ↔ _ := pipeValueOf_bit willJoin .output
  simp only [setUp, pipeValueOf_six, hin, hout]
  rfl

theorem freePipe_connect {c : ℕ} (h : s.connect c e = .ok s') : s'.freePipe ≠ s.freePipe := by
  unfold connect at h
  cases hfree : s.freePipe with
  | none =>
      simp only [hfree] at h
      obtain ⟨q, hq, -, rfl⟩ := of_giveEnd h
      show s.newFreePipe.freePipe ≠ none
      simp [hq]
  | some q =>
      simp only [hfree] at h
      split at h
      · cases h
      · cases h
        simp

/-- The new pipe is not the one that was pending. -/
theorem freePipe_connectBoth {c : ℕ} (h : s.connectBoth c = .ok s') :
    s'.freePipe ≠ s.freePipe := by
  unfold connectBoth at h
  split at h
  · cases h
  · rename_i hgive
    obtain ⟨q, hq, hlive, rfl⟩ := of_giveEnd hgive
    obtain ⟨q', -, -, rfl⟩ := of_giveEnd h
    show some s.numPipes ≠ s.freePipe
    intro hsame
    rw [hq] at hsame
    cases hsame
    exact Nat.lt_irrefl _ hlive.1

/-- An Exec with a bit for a pipe always changes `freePipe`. -/
theorem freePipe_setUp {c : ℕ} {willJoin : BitVec 32} (h : s.setUp c willJoin = .ok s')
    (hbit : willJoin &&& 6#32 ≠ 0#32) : s'.freePipe ≠ s.freePipe := by
  show s'.freePipe ≠ (s.setPipeValue c (pipeValueOf willJoin)).freePipe
  rw [setUp_eq] at h
  split at h
  · exact freePipe_connectBoth h
  · split at h
    · exact freePipe_connect h
    · split at h
      · exact freePipe_connect h
      · rename_i hfour htwo
        exact absurd ((and_six_eq_zero willJoin).2 ⟨hfour, htwo⟩) hbit

theorem setUp_of_no_bit {c : ℕ} {willJoin : BitVec 32} (hbit : willJoin &&& 6#32 = 0#32) :
    s.setUp c willJoin = .ok (s.setPipeValue c (pipeValueOf willJoin)) := by
  obtain ⟨hfour, htwo⟩ := (and_six_eq_zero willJoin).1 hbit
  have hsix : ¬ willJoin &&& 6#32 = 6#32 := fun hsix => hfour ((and_six_eq_six willJoin).1 hsix).1
  rw [setUp_eq, if_neg hsix, if_neg hfour, if_neg htwo]

/-- When the pipes of a new process can be set up: it takes an end of the pending pipe whose
other end is held, and a process with both bits finds a pending pipe. -/
structure Admits (s : Pipes) (uses : ℕ → PipeEnd → Prop) (willJoin : BitVec 32) : Prop where
  both : willJoin &&& 6#32 = 6#32 → s.freePipe ≠ none
  input : willJoin &&& 4#32 = 4#32 → s.Ready uses .input
  output : willJoin &&& 2#32 = 2#32 → willJoin &&& 4#32 ≠ 4#32 → s.Ready uses .output

theorem members_setPipeValue (s : Pipes) (c : ℕ) (value : BitVec 32) :
    ((s.setPipeValue c value).members c).pipeValue = value ∧
      ∀ t ≠ c, (s.setPipeValue c value).members t = s.members t := by
  refine ⟨by simp [Pipes.setPipeValue], ?_⟩
  intro t ht
  exact Function.update_of_ne ht _ _

theorem Ready.setPipeValue {c : ℕ} {value : BitVec 32} (h : s.Ready uses e)
    (hc : ∀ e, ¬ uses c e) : (s.setPipeValue c value).Ready uses e := by
  intro q hq
  obtain ⟨t, ht⟩ := h q hq
  have htc : t ≠ c := fun htc => hc e.other (htc ▸ ht.1)
  refine ⟨t, ht.1, ?_⟩
  rw [(members_setPipeValue s c value).2 t htc]
  exact ht.2

/-- What setting up the pipes of `c` comes to: the others keep their members, and the ends
`new` of `c` come to be in use. -/
def SetsUp (s : Pipes) (uses : ℕ → PipeEnd → Prop) (c : ℕ) (new : PipeEnd → Prop)
    (r : Except Fault Pipes) : Prop :=
  ∃ s', r = .ok s' ∧ (s'.members c).pipeValue = (s.members c).pipeValue ∧
    (∀ t ≠ c, s'.members t = s.members t) ∧
      Sound (fun t d => uses t d ∨ (t = c ∧ new d)) s'

theorem SetsUp.mono {c : ℕ} {new new' : PipeEnd → Prop} {r : Except Fault Pipes}
    (h : s.SetsUp uses c new r) (hle : ∀ e, new' e → new e) : s.SetsUp uses c new' r := by
  obtain ⟨s', hr, hvalue, hother, hsound⟩ := h
  refine ⟨s', hr, hvalue, hother, hsound.mono ?_⟩
  rintro t d (hd | ⟨htc, hd⟩)
  · exact .inl hd
  · exact .inr ⟨htc, hle d hd⟩

theorem Sound.connect {c : ℕ} (h : Sound uses s) (hc : ¬ uses c e) (hready : s.Ready uses e) :
    s.SetsUp uses c (· = e) (s.connect c e) := by
  unfold Pipes.connect
  cases hfree : s.freePipe with
  | none =>
      obtain ⟨hgive, hsound⟩ := h.giveNew hc
      obtain ⟨hvalue, hother⟩ := members_withEnd s.newFreePipe c e s.numPipes
      exact ⟨_, hgive, hvalue, hother, hsound⟩
  | some q =>
      obtain ⟨hlive, hnone⟩ := h.of_ready hready hfree
      obtain ⟨hvalue, hother⟩ := members_withEnd s c e q
      simp only [giveEnd_eq hfree hlive]
      refine ⟨{ s.withEnd c e q with freePipe := none }, rfl, hvalue, hother, ?_⟩
      exact h.dropFree.withEnd hlive hc hnone (by simp)

theorem Sound.connectBoth {c : ℕ} (h : Sound uses s) (hc : ∀ e, ¬ uses c e)
    (hready : s.Ready uses .input) (hpending : s.freePipe ≠ none) :
    s.SetsUp uses c (fun _ => True) (s.connectBoth c) := by
  obtain ⟨q, hfree⟩ := Option.ne_none_iff_exists'.1 hpending
  obtain ⟨hlive, hnone⟩ := h.of_ready hready hfree
  have hfirst := h.dropFree.withEnd (c := c) hlive (hc .input) hnone (by simp)
  obtain ⟨hgive, hsecond⟩ := hfirst.giveNew (c := c) (e := .output) (by simpa using hc .output)
  obtain ⟨hvalue, hother⟩ := members_withEnd s c .input q
  obtain ⟨hvalue', hother'⟩ := members_withEnd (s.withEnd c .input q).newFreePipe c .output
    (s.withEnd c .input q).numPipes
  unfold Pipes.connectBoth
  rw [giveEnd_eq hfree hlive]
  refine ⟨_, hgive, hvalue'.trans hvalue, fun t ht => (hother' t ht).trans (hother t ht),
    hsecond.mono ?_⟩
  rintro t d (hd | ⟨rfl, -⟩)
  · exact .inl (.inl hd)
  · cases d with
    | input => exact .inl (.inr ⟨rfl, rfl⟩)
    | output => exact .inr ⟨rfl, rfl⟩

theorem Sound.setUp {c : ℕ} {willJoin : BitVec 32} (h : Sound uses s) (hc : ∀ e, ¬ uses c e)
    (hadmits : s.Admits uses willJoin) :
    (s.setPipeValue c (pipeValueOf willJoin)).SetsUp uses c
      (fun e => willJoin &&& e.bit = e.bit) (s.setUp c willJoin) := by
  have hsound := h.setPipeValue c (pipeValueOf willJoin)
  rw [setUp_eq]
  by_cases hsix : willJoin &&& 6#32 = 6#32
  · rw [if_pos hsix]
    have hfour := ((and_six_eq_six willJoin).1 hsix).1
    exact (hsound.connectBoth hc ((hadmits.input hfour).setPipeValue hc) (hadmits.both hsix)).mono
      fun _ _ => trivial
  · rw [if_neg hsix]
    by_cases hfour : willJoin &&& 4#32 = 4#32
    · rw [if_pos hfour]
      refine (hsound.connect (hc .input) ((hadmits.input hfour).setPipeValue hc)).mono ?_
      rintro (_ | _) hbit
      · rfl
      · exact absurd ((and_six_eq_six willJoin).2 ⟨hfour, hbit⟩) hsix
    · rw [if_neg hfour]
      by_cases htwo : willJoin &&& 2#32 = 2#32
      · rw [if_pos htwo]
        refine (hsound.connect (hc .output) ((hadmits.output htwo hfour).setPipeValue hc)).mono ?_
        rintro (_ | _) hbit
        · exact absurd hbit hfour
        · rfl
      · rw [if_neg htwo]
        refine ⟨_, rfl, rfl, fun _ _ => rfl, hsound.mono ?_⟩
        rintro t (_ | _) (hd | ⟨-, hbit⟩)
        · exact hd
        · exact absurd hbit hfour
        · exact hd
        · exact absurd hbit htwo

/-! ## Exit -/

theorem setOpen_eq {value : ℤ} (hlive : s.Live q) :
    s.setOpen (some q) e value = .ok { s with
      flags := Function.update s.flags q
        { s.flags q with isOpen := Function.update (s.flags q).isOpen e value } } := by
  rw [setOpen, deref_of_live hlive]

/-- A change of the flags of the pipe `q` at the end `e` of `t`, when the thread at the other end
does not see it. -/
theorem Sound.close {flags : PipeFlags} (h : Sound uses s) (ht : s.Holds uses t e q)
    (hother : (s.flags q).isOpen e.other ≠ 0 →
      flags.deleted = false ∧ flags.isOpen e.other ≠ 0) :
    Sound (fun t' d => uses t' d ∧ ¬ (t' = t ∧ d = e))
      { s with flags := Function.update s.flags q flags } := by
  have hrest : Sound (fun t' d => uses t' d ∧ ¬ (t' = t ∧ d = e)) s := h.mono fun _ _ => And.left
  refine hrest.frame (fun _ _ _ => rfl) ?_ fun _ => .inl
  intro t' d r ht'
  obtain ⟨hlive, hopen⟩ := hrest.live_of_holds ht'
  by_cases hrq : r = q
  · subst hrq
    have hd : d = e.other := by
      by_contra hne
      have hde : d = e := by cases d <;> cases e <;> simp_all [PipeEnd.other]
      subst hde
      exact ht'.1.2 ⟨h.single t' t d r ⟨ht'.1.1, ht'.2⟩ ht, rfl⟩
    subst hd
    obtain ⟨hdel, hopen'⟩ := hother hopen
    exact ⟨⟨hlive.1, by simpa using hdel⟩, by simpa using hopen'⟩
  · refine ⟨⟨hlive.1, ?_⟩, ?_⟩
    · simpa [Function.update_of_ne hrq] using hlive.2
    · simpa [Function.update_of_ne hrq] using hopen

theorem Sound.closeEnd (h : Sound uses s) (hu : (s.members t).HasEnd e → uses t e) :
    ∃ s', s.closeEnd t e = .ok s' ∧ s'.members = s.members ∧
      Sound (fun t' d => uses t' d ∧ ¬ (t' = t ∧ d = e ∧ (s.members t).HasEnd e)) s' := by
  unfold Pipes.closeEnd
  by_cases hend : (s.members t).HasEnd e
  · obtain ⟨q, hq, hlive, -⟩ := h.held t e (hu hend)
    have hne : e.other ≠ e := by cases e <;> decide
    have hlive' : ({ s with
        flags := Function.update s.flags q
          { s.flags q with isOpen := Function.update (s.flags q).isOpen e 0 } } : Pipes).Live q :=
      ⟨hlive.1, by simpa using hlive.2⟩
    rw [if_pos hend, hq, setOpen_eq hlive]
    simp only [hq, deref_of_live hlive']
    have hholds : s.Holds uses t e q := ⟨hu hend, hq⟩
    by_cases hopen : (s.flags q).isOpen e.other = 0
    · rw [if_pos (by simpa [Function.update_of_ne hne] using hopen), Function.update_idem]
      refine ⟨_, rfl, rfl, (h.close hholds fun hne => absurd hopen hne).mono ?_⟩
      exact fun _ _ hx => ⟨hx.1, fun heq => hx.2 ⟨heq.1, heq.2, hend⟩⟩
    · rw [if_neg (by simpa [Function.update_of_ne hne] using hopen)]
      refine ⟨_, rfl, rfl, (h.close hholds ?_).mono ?_⟩
      · intro _
        exact ⟨hlive.2, by simpa [Function.update_of_ne hne] using hopen⟩
      · exact fun _ _ hx => ⟨hx.1, fun heq => hx.2 ⟨heq.1, heq.2, hend⟩⟩
  · rw [if_neg hend]
    exact ⟨s, rfl, rfl, h.mono fun _ _ => And.left⟩

/-- `SysCallExit` closes the ends of the thread, and the others keep theirs. -/
theorem Sound.sysCallExit (h : Sound uses s) (hu : ∀ e, (s.members t).HasEnd e → uses t e) :
    ∃ s', s.sysCallExit t = .ok s' ∧ s'.members = s.members ∧
      Sound (fun t' d => uses t' d ∧ t' ≠ t) s' := by
  obtain ⟨s₁, heq₁, hmem₁, h₁⟩ := h.closeEnd (hu .input)
  obtain ⟨s₂, heq₂, hmem₂, h₂⟩ := h₁.closeEnd (t := t) (e := .output) (by
    rw [hmem₁]
    intro hend
    exact ⟨hu .output hend, by simp⟩)
  refine ⟨s₂, ?_, hmem₂.trans hmem₁, h₂.mono ?_⟩
  · rw [Pipes.sysCallExit, heq₁]
    exact heq₂
  · rintro t' d ⟨hd, hne⟩
    exact ⟨⟨hd, fun heq => hne heq.1⟩, fun heq => hne heq.1⟩

end Pipes

/-! ## Threads -/

namespace PipeThreads

inductive Phase where
  | absent
  /-- Made by Exec and not started. -/
  | made
  | running
  | exited
  deriving DecidableEq

structure State where
  pipes : Pipes
  phase : ℕ → Phase
  /-- The threads that Exec has made, each with its `willJoin`. -/
  execs : List (ℕ × BitVec 32)
  /-- The threads that have used a pipe in `Read2`, `Write2` or `SysCallExit`. -/
  users : List ℕ

inductive Act where
  | exec (t child : ℕ) (willJoin : BitVec 32)
  /-- A thread that Exec has made starts. -/
  | start (t : ℕ)
  /-- `Fork2`, with what the new `Thread` finds in its members. -/
  | fork (t child : ℕ) (members : PipeMembers)
  /-- One access to a pipe in `Read2`, or one step of its loop for the console. -/
  | read (t : ℕ)
  | write (t : ℕ)
  | exit (t : ℕ)

/-- An access to the pipe at the end `e`. -/
def usePipe (s : State) (t : ℕ) (e : PipeEnd) : Except Fault State :=
  match s.pipes.deref ((s.pipes.members t).pipe e) with
  | .error f => .error f
  | .ok _ => .ok { s with users := t :: s.users }

def exec (s : State) (child : ℕ) (willJoin : BitVec 32) : Except Fault State :=
  match s.pipes.setUp child willJoin with
  | .error f => .error f
  | .ok pipes =>
      .ok { s with
        pipes := pipes
        phase := Function.update s.phase child .made
        execs := (child, willJoin) :: s.execs }

def exit (s : State) (t : ℕ) : Except Fault State :=
  match s.pipes.sysCallExit t with
  | .error f => .error f
  | .ok pipes =>
      .ok { s with
        pipes := pipes
        phase := Function.update s.phase t .exited
        users :=
          if (s.pipes.members t).HasEnd .input ∨ (s.pipes.members t).HasEnd .output then
            t :: s.users
          else
            s.users }

/-- One move; a move of a thread that does not run, or for a thread that exists, is none. -/
def step (s : State) : Act → Except Fault State
  | .exec t child willJoin =>
      if s.phase t = .running ∧ s.phase child = .absent then exec s child willJoin else .ok s
  | .start t =>
      if s.phase t = .made then
        .ok { s with phase := Function.update s.phase t .running }
      else
        .ok s
  | .fork t child members =>
      if s.phase t = .running ∧ s.phase child = .absent then
        .ok { s with
          pipes := { s.pipes with members := Function.update s.pipes.members child members }
          phase := Function.update s.phase child .running }
      else
        .ok s
  | .read t =>
      if s.phase t = .running ∧ Pipes.ReadsPipe (s.pipes.members t) then
        usePipe s t .input
      else
        .ok s
  | .write t =>
      if s.phase t = .running ∧ Pipes.WritesPipe (s.pipes.members t) then
        usePipe s t .output
      else
        .ok s
  | .exit t => if s.phase t = .running then exit s t else .ok s

/-- The first process, with what the members of its `Thread` are. -/
def init (members : PipeMembers) : State where
  pipes :=
    { flags := fun _ =>
        { isOpen := fun _ => 0
          deleted := false }
      numPipes := 0
      freePipe := none
      members := fun _ => members }
  phase := Function.update (fun _ => .absent) 0 .running
  execs := []
  users := []

/-! ## Every run -/

def Alive (s : State) (t : ℕ) : Prop := s.phase t = .made ∨ s.phase t = .running

/-- The ends that the threads that have not exited may come to. -/
def InUse (s : State) (t : ℕ) (e : PipeEnd) : Prop :=
  Alive s t ∧ (s.pipes.members t).HasEnd e

/-- The thread was made by Exec with a bit for a pipe. -/
def Piped (s : State) (t : ℕ) : Prop :=
  ∃ willJoin, (t, willJoin) ∈ s.execs ∧ willJoin &&& 6#32 ≠ 0#32

/-- What is asked of a move. -/
def Allowed (s : State) : Act → Prop
  | .exec t child willJoin =>
      s.phase t = .running ∧ s.phase child = .absent → s.pipes.Admits (InUse s) willJoin
  | .fork t child members =>
      s.phase t = .running ∧ s.phase child = .absent → members.pipeValue &&& 6#32 = 0#32
  | _ => True

structure Sound (s : State) : Prop where
  ends : s.pipes.Sound (InUse s)
  piped : ∀ t e, InUse s t e → Piped s t
  users : ∀ t ∈ s.users, Piped s t

variable {s s' : State} {t : ℕ}

theorem not_inUse_of_absent {c : ℕ} (h : s.phase c = .absent) (e : PipeEnd) : ¬ InUse s c e := by
  rintro ⟨hc | hc, -⟩ <;> rw [h] at hc <;> cases hc

theorem not_hasEnd {m : PipeMembers} (h : m.pipeValue &&& 6#32 = 0#32) (e : PipeEnd) :
    ¬ m.HasEnd e := by
  obtain ⟨hfour, htwo⟩ := (Pipes.and_six_eq_zero m.pipeValue).1 h
  cases e with
  | input => exact hfour
  | output => exact htwo

theorem Sound.exec {c : ℕ} {willJoin : BitVec 32} (h : Sound s) (hc : s.phase c = .absent)
    (hadmits : s.pipes.Admits (InUse s) willJoin) :
    ∃ s', exec s c willJoin = .ok s' ∧ Sound s' := by
  obtain ⟨pipes, heq, hvalue, hother, hsound⟩ := h.ends.setUp (not_inUse_of_absent hc) hadmits
  obtain ⟨hvalue', hother'⟩ := Pipes.members_setPipeValue s.pipes c (Pipes.pipeValueOf willJoin)
  replace hvalue := hvalue.trans hvalue'
  replace hother := fun t ht => (hother t ht).trans (hother' t ht)
  rw [PipeThreads.exec, heq]
  refine ⟨_, rfl, ?_⟩
  have hpiped : ∀ {t}, Piped s t →
      ∃ wj, (t, wj) ∈ (c, willJoin) :: s.execs ∧ wj &&& 6#32 ≠ 0#32 := by
    rintro t ⟨wj, hmem, hbit⟩
    exact ⟨wj, List.mem_cons_of_mem _ hmem, hbit⟩
  -- an end in use is an old one or an end of the new thread
  have hold : ∀ t e, InUse (State.mk pipes (Function.update s.phase c .made)
      ((c, willJoin) :: s.execs) s.users) t e →
        InUse s t e ∨ (t = c ∧ willJoin &&& e.bit = e.bit) := by
    rintro t e ⟨halive, hend⟩
    by_cases htc : t = c
    · subst htc
      refine .inr ⟨rfl, ?_⟩
      unfold PipeMembers.HasEnd at hend
      rwa [hvalue, Pipes.pipeValueOf_bit] at hend
    · refine .inl ⟨?_, ?_⟩
      · simpa [Alive, Function.update_of_ne htc] using halive
      · simpa [hother t htc] using hend
  refine ⟨hsound.mono hold, ?_, fun t ht => hpiped (h.users t ht)⟩
  intro t e ht
  rcases hold t e ht with ht | ⟨rfl, hbit⟩
  · exact hpiped (h.piped t e ht)
  · refine ⟨willJoin, List.mem_cons_self, ?_⟩
    intro hzero
    obtain ⟨hfour, htwo⟩ := (Pipes.and_six_eq_zero willJoin).1 hzero
    cases e with
    | input => exact hfour hbit
    | output => exact htwo hbit

theorem Sound.exit (h : Sound s) (ht : s.phase t = .running) :
    ∃ s', exit s t = .ok s' ∧ Sound s' := by
  have hu : ∀ e, (s.pipes.members t).HasEnd e → InUse s t e := fun e he => ⟨.inr ht, he⟩
  obtain ⟨pipes, heq, hmem, hsound⟩ := h.ends.sysCallExit hu
  rw [PipeThreads.exit, heq]
  obtain ⟨users, husers⟩ : ∃ users, users =
    if (s.pipes.members t).HasEnd .input ∨ (s.pipes.members t).HasEnd .output then t :: s.users
    else s.users := ⟨_, rfl⟩
  simp only [← husers]
  have hold : ∀ t' e,
      InUse (State.mk pipes (Function.update s.phase t .exited) s.execs users) t' e →
      InUse s t' e ∧ t' ≠ t := by
    rintro t' e ⟨halive, hend⟩
    have hne : t' ≠ t := by
      rintro rfl
      simp [Alive] at halive
    exact ⟨⟨by simpa [Alive, Function.update_of_ne hne] using halive, hmem ▸ hend⟩, hne⟩
  refine ⟨_, rfl, hsound.mono hold, fun t' e ht' => h.piped t' e (hold t' e ht').1, ?_⟩
  intro t' ht'
  show Piped s t'
  simp only [husers] at ht'
  split at ht'
  · rename_i hend
    rcases List.mem_cons.1 ht' with rfl | ht'
    · rcases hend with hend | hend
      · exact h.piped t' .input (hu .input hend)
      · exact h.piped t' .output (hu .output hend)
    · exact h.users t' ht'
  · exact h.users t' ht'

theorem Sound.usePipe {e : PipeEnd} (h : Sound s) (ht : s.phase t = .running)
    (hend : (s.pipes.members t).HasEnd e) : ∃ s', usePipe s t e = .ok s' ∧ Sound s' := by
  obtain ⟨q, hq, hlive, -⟩ := h.ends.held t e ⟨.inr ht, hend⟩
  rw [PipeThreads.usePipe, hq, Pipes.deref_of_live hlive]
  refine ⟨_, rfl, h.ends, h.piped, ?_⟩
  intro t' ht'
  rcases List.mem_cons.1 ht' with rfl | ht'
  · exact h.piped t' e ⟨.inr ht, hend⟩
  · exact h.users t' ht'

theorem hasEnd_of_readsPipe {m : PipeMembers} (h : Pipes.ReadsPipe m) : m.HasEnd .input := by
  by_contra hend
  exact h ⟨hend, fun hsix => hend ((Pipes.and_six_eq_six m.pipeValue).1 hsix).1⟩

theorem hasEnd_of_writesPipe {m : PipeMembers} (h : Pipes.WritesPipe m) : m.HasEnd .output := by
  by_contra hend
  exact h ⟨hend, fun hsix => hend ((Pipes.and_six_eq_six m.pipeValue).1 hsix).2⟩

/-- A thread that starts, or that comes without a pipe, uses no end that was not in use. -/
theorem Sound.arrive {members : ℕ → PipeMembers} {phase : ℕ → Phase} (h : Sound s)
    (hpipe : ∀ t e, InUse { s with
      pipes := { s.pipes with members := members }, phase := phase } t e →
        InUse s t e ∧ members t = s.pipes.members t) :
    Sound { s with pipes := { s.pipes with members := members }, phase := phase } := by
  refine ⟨?_, fun t e ht => h.piped t e (hpipe t e ht).1, h.users⟩
  refine (h.ends.mono fun t e ht => (hpipe t e ht).1).frame ?_ ?_ fun _ => .inl
  · intro t e ht
    exact congrArg (fun m => m.pipe e) (hpipe t e ht).2
  · intro t e q ht
    exact h.ends.live_of_holds ⟨(hpipe t e ht.1).1, ht.2⟩

theorem Sound.start (h : Sound s) (ht : s.phase t = .made) :
    Sound { s with phase := Function.update s.phase t .running } := by
  show Sound { s with
    pipes := { s.pipes with members := s.pipes.members }
    phase := Function.update s.phase t .running }
  refine h.arrive ?_
  rintro t' e ⟨halive, hend⟩
  refine ⟨⟨?_, hend⟩, rfl⟩
  by_cases htt : t' = t
  · subst htt
    exact .inl ht
  · simpa [Alive, Function.update_of_ne htt] using halive

theorem Sound.fork {c : ℕ} {members : PipeMembers} (h : Sound s)
    (hm : members.pipeValue &&& 6#32 = 0#32) :
    Sound { s with
      pipes := { s.pipes with members := Function.update s.pipes.members c members }
      phase := Function.update s.phase c .running } := by
  refine h.arrive ?_
  rintro t e ⟨halive, hend⟩
  have htc : t ≠ c := by
    rintro rfl
    exact not_hasEnd hm e (by simpa using hend)
  refine ⟨⟨?_, ?_⟩, Function.update_of_ne htc _ _⟩
  · simpa [Alive, Function.update_of_ne htc] using halive
  · simpa [Function.update_of_ne htc] using hend

theorem Sound.step (h : Sound s) {a : Act} (ha : Allowed s a) :
    ∃ s', step s a = .ok s' ∧ Sound s' := by
  cases a with
  | exec t child willJoin =>
      by_cases hphase : s.phase t = .running ∧ s.phase child = .absent
      · simp only [PipeThreads.step, if_pos hphase]
        exact h.exec hphase.2 (ha hphase)
      · exact ⟨s, by simp only [PipeThreads.step, if_neg hphase], h⟩
  | start t =>
      by_cases hphase : s.phase t = .made
      · exact ⟨_, by simp only [PipeThreads.step, if_pos hphase], h.start hphase⟩
      · exact ⟨s, by simp only [PipeThreads.step, if_neg hphase], h⟩
  | fork t child members =>
      by_cases hphase : s.phase t = .running ∧ s.phase child = .absent
      · exact ⟨_, by simp only [PipeThreads.step, if_pos hphase], h.fork (c := child) (ha hphase)⟩
      · exact ⟨s, by simp only [PipeThreads.step, if_neg hphase], h⟩
  | read t =>
      by_cases hphase : s.phase t = .running ∧ Pipes.ReadsPipe (s.pipes.members t)
      · simp only [PipeThreads.step, if_pos hphase]
        exact h.usePipe hphase.1 (hasEnd_of_readsPipe hphase.2)
      · exact ⟨s, by simp only [PipeThreads.step, if_neg hphase], h⟩
  | write t =>
      by_cases hphase : s.phase t = .running ∧ Pipes.WritesPipe (s.pipes.members t)
      · simp only [PipeThreads.step, if_pos hphase]
        exact h.usePipe hphase.1 (hasEnd_of_writesPipe hphase.2)
      · exact ⟨s, by simp only [PipeThreads.step, if_neg hphase], h⟩
  | exit t =>
      by_cases hphase : s.phase t = .running
      · simp only [PipeThreads.step, if_pos hphase]
        exact h.exit hphase
      · exact ⟨s, by simp only [PipeThreads.step, if_neg hphase], h⟩

theorem Sound.init {members : PipeMembers} (hm : members.pipeValue &&& 6#32 = 0#32) :
    Sound (init members) := by
  have hnone : ∀ t e, ¬ InUse (PipeThreads.init members) t e := fun t e ht => not_hasEnd hm e ht.2
  refine ⟨⟨?_, ?_, ?_⟩, fun t e ht => absurd ht (hnone t e), by simp [PipeThreads.init]⟩
  · exact fun t e ht => absurd ht (hnone t e)
  · exact fun t t' e q ht => absurd ht.1 (hnone t e)
  · exact fun t t' e q _ ht => absurd ht.1 (hnone t e)

/-- When no thread takes an end of a pipe that is held or whose other end has been closed, and no
thread finds a bit for a pipe by chance, every pipe that is used is there, and the threads that use
one have got it from Exec. -/
theorem pipes_live {members : PipeMembers} {acts : List Act}
    (hm : members.pipeValue &&& 6#32 = 0#32) (h : Meets step Allowed (init members) acts) :
    ∃ s, runFrom step (init members) acts = .ok s ∧ ∀ t ∈ s.users, Piped s t := by
  obtain ⟨s, hs, hsound⟩ := exists_of_meets (fun s a h ha => Sound.step h ha) (Sound.init hm) h
  exact ⟨s, hs, hsound.users⟩

/-- A thread that finds nothing of a pipe in its members. -/
def quiet : PipeMembers where
  pipeValue := 0#32
  pipe := fun _ => none

/-- One of the first eight threads has the end `e` of `q`. -/
def holdsTest (s : State) (e : PipeEnd) (q : ℕ) : Bool :=
  (List.range 8).any fun t =>
    decide ((s.phase t = .made ∨ s.phase t = .running) ∧ (s.pipes.members t).HasEnd e ∧
      (s.pipes.members t).pipe e = some q)

def readyTest (s : State) (e : PipeEnd) : Bool :=
  match s.pipes.freePipe with
  | none => true
  | some q => holdsTest s e.other q

def allowedTest (s : State) : Act → Bool
  | .exec _ _ willJoin =>
      (willJoin &&& 6#32 ≠ 6#32 || s.pipes.freePipe.isSome) &&
        (willJoin &&& 4#32 ≠ 4#32 || readyTest s .input) &&
          (willJoin &&& 2#32 ≠ 2#32 || willJoin &&& 4#32 = 4#32 || readyTest s .output)
  | .fork _ _ members => members.pipeValue &&& 6#32 = 0#32
  | _ => true

theorem ready_of_readyTest {e : PipeEnd} (h : readyTest s e = true) :
    s.pipes.Ready (InUse s) e := by
  intro q hq
  rw [readyTest, hq] at h
  obtain ⟨t, -, ht⟩ := List.any_eq_true.1 h
  obtain ⟨halive, hend, hpipe⟩ := of_decide_eq_true ht
  exact ⟨t, ⟨halive, hend⟩, hpipe⟩

theorem allowed_of_allowedTest {a : Act} (h : allowedTest s a = true) : Allowed s a := by
  cases a with
  | exec t child willJoin =>
      intro _
      simp only [allowedTest, Bool.and_eq_true, Bool.or_eq_true, decide_eq_true_eq] at h
      obtain ⟨⟨hboth, hin⟩, hout⟩ := h
      refine ⟨?_, ?_, ?_⟩
      · intro hsix hnone
        rw [hnone] at hboth
        simp [hsix] at hboth
      · intro hfour
        exact ready_of_readyTest (hin.resolve_left fun hne => hne hfour)
      · intro htwo hfour
        rcases hout with (hne | hfour') | hready
        · exact absurd htwo hne
        · exact absurd hfour' hfour
        · exact ready_of_readyTest hready
  | fork t child members =>
      intro _
      simpa [allowedTest] using h
  | start t => trivial
  | read t => trivial
  | write t => trivial
  | exit t => trivial

/-- Three processes in a row, with a thread of the first one beside them. -/
def row : List Act :=
  [.exec 0 1 2#32, .start 1, .exec 0 2 6#32, .exec 0 3 5#32, .write 1, .start 3, .fork 0 4 quiet,
    .start 2, .read 2, .exit 1, .read 2, .write 2, .read 4, .exit 4, .read 3, .exit 3, .write 2,
    .exit 2, .exit 0]

theorem pipes_live_row :
    quiet.pipeValue &&& 6#32 = 0#32 ∧ Meets step Allowed (init quiet) row ∧
      ∃ s, runFrom step (init quiet) row = .ok s ∧ ∀ t ∈ s.users, Piped s t := by
  have hmeets : Meets step Allowed (init quiet) row := by
    have htest : passesMeeting step allowedTest (fun s => s.users.length = 9) (init quiet) row =
        true := by
      decide +kernel
    exact (of_passesMeeting htest).1.imp fun _ _ => allowed_of_allowedTest
  exact ⟨rfl, hmeets, pipes_live rfl hmeets⟩

/-- A first Exec with both bits comes to a null pointer, an Exec after the Exit of the only process
at the pending pipe to a deleted pipe, and the first process to whatever it finds. -/
theorem pipes_dead :
    runFrom step (init quiet) [.exec 0 1 6#32] = .error .nullPointer ∧
      runFrom step (init quiet) [.exec 0 1 4#32, .start 1, .exit 1, .exec 0 2 2#32] =
        .error .useAfterFree ∧
      runFrom step (init { pipeValue := 4#32, pipe := fun _ => some 0 }) [.read 0] =
        .error .wildAddress :=
  ⟨rfl, rfl, rfl⟩

end PipeThreads

end Nachos
