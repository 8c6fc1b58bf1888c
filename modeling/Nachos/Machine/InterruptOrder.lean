import Nachos.Machine.Interrupts
import Nachos.Threads.Priorities

/-!
# When interrupts fire

As long as no time wraps around, the agenda of the machine is chronological: no interrupt fires
early or twice, and they fire in the order of time. The loop of `OneTick` ends, since each of its
turns fires one of the interrupts that are due, and those that the handlers schedule are not due
before the next tick. An interrupt whose time wraps around lies in the past, and is due at once.

`CheckIfDue` takes the first interrupt off the list even if it is not due, and puts it back
behind all others that are for the same time.
-/

namespace Nachos

open Lib

namespace Interrupts

/-- `OneTick` is called. -/
def Ticks (m : Interrupts) (ev : Event) : Prop :=
  ev = .oneTick ∨ ev = .setLevel .intOn ∧ m.level = .intOff

/-- `totalTicks` stays below `INT_MAX`. -/
def Below (m : Interrupts) (ev : Event) : Prop :=
  (Ticks m ev → m.totalTicks + m.tickLength < intMax) ∧ m.clock ev < intMax

/-- No time for which an interrupt is scheduled wraps around. -/
def Fits (m : Interrupts) (ev : Event) : Prop :=
  ∀ r ∈ ev.requests, m.clock ev + r.fromNow ≤ intMax

/-- No interrupt has been fired twice or early, all of them in the order of time, and the ticks add
up. -/
structure Timely (m : Interrupts) : Prop where
  once : (m.fired.map Firing.interrupt).Nodup
  punctual : ∀ f ∈ m.fired, f.toOccur.when ≤ f.clock
  order : m.fired.Pairwise fun f g => f.toOccur.when ≤ g.toOccur.when
  account : m.totalTicks = m.idleTicks + m.systemTicks + m.userTicks

/-- Whatever the handlers do, the loop of `OneTick` ends, and nothing is due then. -/
def LoopEnds (m : Interrupts) : Prop :=
  m.phase = .oneTick → ∀ reactions : ℕ → Reaction,
    (∀ n, ∀ r ∈ (reactions n).requests, 0 < r.fromNow ∧ m.totalTicks + r.fromNow ≤ intMax) →
    ∃ n m', runFrom step m ((List.range n).map fun i => .check (reactions i)) = .ok m' ∧
      m'.phase = .outside ∧ ∀ x ∈ m'.pending.entries, m'.totalTicks < x.2

variable {m m' : Interrupts} {A : Agenda} {reaction : Reaction} {ev : Event}

/-! ## The ticks -/

theorem int32_eq {x : ℤ} (h₀ : 0 ≤ x) (h : x ≤ intMax) : int32 x = x := by
  unfold intMax at h
  rw [int32, Int.bmod_def]
  omega

/-- The ticks add up, and none of them has wrapped around. -/
structure Accounted (m : Interrupts) : Prop where
  total : m.totalTicks = m.idleTicks + m.systemTicks + m.userTicks
  idle : 0 ≤ m.idleTicks
  system : 0 ≤ m.systemTicks
  user : 0 ≤ m.userTicks
  le : m.totalTicks ≤ intMax

theorem accounted_init : init.Accounted := ⟨rfl, le_rfl, le_rfl, le_rfl, by decide⟩

theorem Accounted.congr (h : m.Accounted) (ht : m'.totalTicks = m.totalTicks)
    (hi : m'.idleTicks = m.idleTicks) (hs : m'.systemTicks = m.systemTicks)
    (hu : m'.userTicks = m.userTicks) : m'.Accounted := by
  obtain ⟨h₁, h₂, h₃, h₄, h₅⟩ := h
  exact ⟨by rw [ht, hi, hs, hu, h₁], by rwa [hi], by rwa [hs], by rwa [hu], by rwa [ht]⟩

theorem Accounted.nonneg (h : m.Accounted) : 0 ≤ m.totalTicks := by
  have := h.total
  have := h.idle
  have := h.system
  have := h.user
  omega

theorem Accounted.oneTick (h : m.Accounted) (hlt : m.totalTicks + m.tickLength < intMax) :
    m.oneTick.Accounted ∧ m.totalTicks ≤ m.tick := by
  have hnonneg := h.nonneg
  obtain ⟨htotal, hidle, hsystem, huser, -⟩ := h
  by_cases hst : m.status = .systemMode
  · simp only [tickLength, hst, if_true, systemTick] at hlt
    have htick : m.tick = m.totalTicks + 10 := by
      simp only [tick, tickLength, hst, if_true, systemTick]
      exact int32_eq (by omega) hlt.le
    have hsys : int32 (m.systemTicks + systemTick) = m.systemTicks + 10 :=
      int32_eq (by unfold systemTick; omega) (by unfold systemTick; omega)
    refine ⟨?_, by omega⟩
    simp only [Interrupts.oneTick, hst, if_true]
    refine ⟨?_, hidle, ?_, huser, ?_⟩
    · change m.tick = m.idleTicks + int32 (m.systemTicks + systemTick) + m.userTicks
      omega
    · change 0 ≤ int32 (m.systemTicks + systemTick)
      omega
    · change m.tick ≤ intMax
      omega
  · simp only [tickLength, hst, if_false, userTick] at hlt
    have htick : m.tick = m.totalTicks + 1 := by
      simp only [tick, tickLength, hst, if_false, userTick]
      exact int32_eq (by omega) hlt.le
    have huse : int32 (m.userTicks + userTick) = m.userTicks + 1 :=
      int32_eq (by unfold userTick; omega) (by unfold userTick; omega)
    refine ⟨?_, by omega⟩
    simp only [Interrupts.oneTick, hst, if_false]
    refine ⟨?_, hidle, hsystem, ?_, ?_⟩
    · change m.tick = m.idleTicks + m.systemTicks + int32 (m.userTicks + userTick)
      omega
    · change 0 ≤ int32 (m.userTicks + userTick)
      omega
    · change m.tick ≤ intMax
      omega

theorem Accounted.advance (h : m.Accounted) (hs : m.Shows A)
    (hkey : ∀ e ∈ A.entries, e.key ≤ intMax) (adv : Bool) :
    (m.advance adv).Accounted ∧ m.totalTicks ≤ (m.advance adv).totalTicks := by
  have hpending := hs.pending
  unfold Interrupts.advance
  cases hentries : A.entries with
  | nil =>
      rw [hentries] at hpending
      rw [hpending.sortedRemove_nil]
      exact ⟨h, le_rfl⟩
  | cons e es =>
      rw [hentries] at hpending
      obtain ⟨l, hremove, -⟩ := hpending.sortedRemove
      rw [hremove]
      dsimp only
      split
      · rename_i hadv
        have hnonneg := h.nonneg
        have hle := hkey e (by simp [hentries])
        obtain ⟨htotal, hidle, hsystem, huser, -⟩ := h
        have hidle' : int32 (m.idleTicks + (e.key - m.totalTicks)) =
            m.idleTicks + (e.key - m.totalTicks) := int32_eq (by omega) (by omega)
        refine ⟨⟨?_, ?_, hsystem, huser, hle⟩, hadv.2.le⟩
        · dsimp only
          omega
        · dsimp only
          omega
      · exact ⟨h, le_rfl⟩

theorem Accounted.goOn (h : m.Accounted) (answer : Bool) : (m.goOn answer).Accounted := by
  unfold Interrupts.goOn
  split
  · unfold finishTick
    dsimp only
    split <;> exact h.congr rfl rfl rfl rfl
  · exact h.congr rfl rfl rfl rfl
  · exact h.congr rfl rfl rfl rfl
  · exact h.congr rfl rfl rfl rfl
  · exact h

theorem advance_false (m : Interrupts) : m.advance false = m := by
  unfold Interrupts.advance
  split
  · rfl
  · simp

theorem Checked.keeps {adv b : Bool} (hc : Checked m A adv reaction b m') (h : m.Shows A) :
    (m.advance adv).Keeps m' := by
  cases hc with
  | nothing he =>
      have hpending := h.pending
      rw [he] at hpending
      have hm : m.advance adv = m := by simp [Interrupts.advance, hpending.sortedRemove_nil]
      rw [hm]
      exact .rfl m
  | early he hadv hlt hk hs =>
      rw [hadv, advance_false]
      exact hk
  | quit he hidle hk hs => exact hk
  | fired he hdue hpos hk hs => exact hk

/-- A step keeps the account, and it does not turn the clock back. -/
theorem Accounted.step (h : m.Accounted) (hs : m.Shows A) (hkey : ∀ e ∈ A.entries, e.key ≤ intMax)
    (hbelow : Below m ev) (hok : m.step ev = .ok m') :
    m'.Accounted ∧ m.totalTicks ≤ m.clock ev := by
  cases stepped hok with
  | @check reaction answer m₁ hp hm₁ =>
      obtain ⟨hadv, hle⟩ := h.advance hs hkey (m.phase = .idle)
      have hk := (hs.checked hm₁).keeps hs
      refine ⟨Accounted.goOn ?_ answer, hle⟩
      exact hadv.congr hk.totalTicks hk.idleTicks hk.systemTicks hk.userTicks
  | @schedule r _ hp hpos hm' =>
      obtain ⟨m₁, hm₁, -, hk, -⟩ := hs.schedule hpos
      rw [hm'] at hm₁
      cases hm₁
      exact ⟨h.congr hk.totalTicks hk.idleTicks hk.systemTicks hk.userTicks, le_rfl⟩
  | enable hp hlevel =>
      have hon : (m.changeLevel .intOn).Accounted := h.congr rfl rfl rfl rfl
      rw [clock, if_pos ⟨rfl, hlevel⟩]
      exact hon.oneTick (hbelow.1 (.inr ⟨rfl, hlevel⟩))
  | setLevel hp hoff =>
      rw [clock, if_neg hoff]
      exact ⟨h.congr rfl rfl rfl rfl, le_rfl⟩
  | oneTick hp => exact h.oneTick (hbelow.1 (.inl rfl))
  | idle hp => exact ⟨h.congr rfl rfl rfl rfl, le_rfl⟩
  | setStatus hp hst => exact ⟨h.congr rfl rfl rfl rfl, le_rfl⟩

/-! ## The loop of `OneTick` -/

/-- The machine is idle in `Idle` only, and interrupts are off in the loop of `OneTick`. -/
structure Poised (m : Interrupts) : Prop where
  outside : m.phase = .outside → m.status ≠ .idleMode
  oneTick : m.phase = .oneTick → m.level = .intOff ∧ m.status ≠ .idleMode

theorem poised_init : init.Poised := ⟨fun _ => (by decide), fun h => (by cases h)⟩

theorem Poised.goOn (h : m.Poised) (answer : Bool) : (m.goOn answer).Poised := by
  unfold Interrupts.goOn
  split
  · rename_i hp
    unfold finishTick
    dsimp only
    split
    · exact ⟨fun _ hst => (by cases hst), fun hp' => (by cases hp')⟩
    · exact ⟨fun _ => (h.oneTick hp).2, fun hp' => (by cases hp')⟩
  · exact ⟨fun hp => (by cases hp), fun hp => (by cases hp)⟩
  · exact ⟨fun hp => (by cases hp), fun hp => (by cases hp)⟩
  · exact ⟨fun _ hst => (by cases hst), fun hp => (by cases hp)⟩
  · exact h

theorem Poised.oneTick_of (h : m.status ≠ .idleMode) : m.oneTick.Poised := by
  unfold Interrupts.oneTick
  dsimp only
  split <;> exact ⟨fun hp => (by cases hp), fun _ => ⟨rfl, h⟩⟩

theorem Keeps.poised {m₁ : Interrupts} (hk : m₁.Keeps m') (h : m.Poised) {i t : ℤ}
    (hm₁ : m₁ = { m with idleTicks := i, totalTicks := t }) : m'.Poised := by
  subst hm₁
  refine ⟨?_, ?_⟩
  · rw [hk.phase, hk.status]
    exact h.outside
  · rw [hk.phase, hk.status, hk.level]
    exact h.oneTick

theorem Poised.step (h : m.Poised) (hs : m.Shows A) (hok : m.step ev = .ok m') : m'.Poised := by
  cases stepped hok with
  | @check reaction answer m₁ hp hm₁ =>
      obtain ⟨i, t, hadv⟩ := m.advance_eq (m.phase = .idle)
      exact (((hs.checked hm₁).keeps hs).poised h hadv).goOn answer
  | @schedule r _ hp hpos hm' =>
      obtain ⟨m₁, hm₁, -, hk, -⟩ := hs.schedule hpos
      rw [hm'] at hm₁
      cases hm₁
      exact hk.poised h rfl
  | enable hp hlevel => exact .oneTick_of (h.outside hp)
  | setLevel hp hoff => exact ⟨h.outside, fun hp' => absurd (hp.symm.trans hp') (by decide)⟩
  | oneTick hp => exact .oneTick_of (h.outside hp)
  | idle hp => exact ⟨fun hp => (by cases hp), fun hp => (by cases hp)⟩
  | setStatus hp hst => exact ⟨fun _ => hst, fun hp' => absurd (hp.symm.trans hp') (by decide)⟩

theorem Shows.not_due (h : m.Shows A) (hlt : ∀ e ∈ A.entries, A.now < e.key) :
    ∀ x ∈ m.pending.entries, m.totalTicks < x.2 := by
  rw [h.pending.entries_eq, ← h.now]
  intro x hx
  obtain ⟨e, he, rfl⟩ := List.mem_map.1 hx
  exact hlt e he

/-- A turn of the loop ends it, when nothing is due any more, or fires one of the interrupts that
are due. -/
theorem Shows.turn (h : m.Shows A) (hd : A.Distinct) (hphase : m.phase = .oneTick)
    (hp : m.level = .intOff ∧ m.status ≠ .idleMode) (hnonneg : 0 ≤ m.totalTicks)
    (hreact : ∀ r ∈ reaction.requests, 0 < r.fromNow ∧ m.totalTicks + r.fromNow ≤ intMax) :
    ∃ m', m.step (.check reaction) = .ok m' ∧
      (m'.phase = .outside ∧ (∀ x ∈ m'.pending.entries, m'.totalTicks < x.2) ∨
        m.Keeps m' ∧ ∃ A', m'.Shows A' ∧ A'.Distinct ∧ A'.due + 1 = A.due) := by
  rcases h.checkIfDue hp.1 false reaction with ⟨answer, m₁, hok, hc⟩ | ⟨hnot, -⟩
  · have hidle : decide (m.phase = .idle) = false := by simp [hphase]
    have hstep : m.step (.check reaction) = .ok (m₁.goOn answer) := by
      simp [Interrupts.step, Interrupts.check, hphase, hok]
    have hk := hc.keeps h
    rw [advance_false] at hk
    have hphase₁ : m₁.phase = .oneTick := hk.phase.trans hphase
    -- the end of the loop leaves the list as it is
    have hend : (m₁.goOn false).phase = .outside ∧
        (m₁.goOn false).pending = m₁.pending ∧ (m₁.goOn false).totalTicks = m₁.totalTicks := by
      simp only [Interrupts.goOn, hphase₁, finishTick]
      split <;> exact ⟨rfl, rfl, rfl⟩
    refine ⟨_, hstep, ?_⟩
    cases hc with
    | nothing he =>
        left
        refine ⟨hend.1, ?_⟩
        rw [hend.2.1, hend.2.2]
        exact h.not_due (by simp [he])
    | @early e es _ he hadv hlt hk' hs =>
        left
        refine ⟨hend.1, ?_⟩
        rw [hend.2.1, hend.2.2]
        refine hs.not_due ?_
        have hall := hd.not_due (by simpa [he] using hlt)
        intro d hd'
        exact hall d (he ▸ List.mem_cons.2 (mem_sortedInsert.1 hd'))
    | quit he hst hk' hs => exact absurd hst hp.2
    | @fired e es _ he hdue hpos hk' hs =>
        right
        have hgo : m₁.goOn true = m₁ := by simp [Interrupts.goOn, hphase₁]
        have hwait : A.wait m.totalTicks = A := by rw [← h.now]; rfl
        rw [hgo]
        rw [advance_false] at hdue hs
        rw [hwait] at hs
        rw [← h.now] at hdue
        refine ⟨hk, _, hs, hd.moves (T := fun _ _ => True) (P := fun _ _ => True)
          (Q := fun _ _ => True) ((Agenda.Moves.refl.fire he hdue).addAll fun _ _ _ _ =>
            trivial), ?_⟩
        rw [Agenda.due_addAll, Agenda.due_fire he hdue]
        intro w hw
        obtain ⟨r, hr, rfl⟩ := List.mem_map.1 hw
        obtain ⟨hpos, hle⟩ := hreact r hr
        change A.now < int32 (m.totalTicks + r.fromNow)
        rw [int32_eq (by omega) hle, h.now]
        omega
  · exact absurd (fun r hr => (hreact r hr).1) hnot

theorem Shows.loop_ends {n : ℕ} (h : m.Shows A) (hd : A.Distinct) (hphase : m.phase = .oneTick)
    (hp : m.level = .intOff ∧ m.status ≠ .idleMode) (hnonneg : 0 ≤ m.totalTicks)
    (hdue : A.due = n) (reactions : ℕ → Reaction)
    (hreact : ∀ i, ∀ r ∈ (reactions i).requests, 0 < r.fromNow ∧
      m.totalTicks + r.fromNow ≤ intMax) :
    ∃ n m', runFrom Interrupts.step m ((List.range n).map fun i => .check (reactions i)) = .ok m' ∧
      m'.phase = .outside ∧ ∀ x ∈ m'.pending.entries, m'.totalTicks < x.2 := by
  -- the measure is the number of interrupts that are due, not the length of the list
  induction n generalizing m A reactions with
  | zero =>
      obtain ⟨m₁, hok, hend | ⟨-, A₁, -, -, hlt⟩⟩ := h.turn hd hphase hp hnonneg (hreact 0)
      · exact ⟨1, m₁, by simp [runFrom, hok], hend⟩
      · rw [hdue] at hlt
        cases hlt
  | succ n ih =>
      obtain ⟨m₁, hok, hend | ⟨hk, A₁, h₁, hd₁, hlt⟩⟩ := h.turn hd hphase hp hnonneg (hreact 0)
      · exact ⟨1, m₁, by simp [runFrom, hok], hend⟩
      · obtain ⟨k, m₂, hrun, hend⟩ := ih h₁ hd₁ (hk.phase.trans hphase)
          ⟨hk.level.trans hp.1, hk.status ▸ hp.2⟩ (hk.totalTicks ▸ hnonneg) (by omega)
          (fun i => reactions (i + 1)) (fun i r hr => hk.totalTicks ▸ hreact (i + 1) r hr)
        refine ⟨k + 1, m₂, ?_, hend⟩
        rw [List.range_succ_eq_map, List.map_cons, List.map_map]
        exact (runFrom_cons_ok Interrupts.step m m₂ _ _).2 ⟨m₁, hok, hrun⟩

/-! ## Runs without overflow -/

/-- The invariant of the runs in which no time wraps around. -/
structure Sound (m : Interrupts) (A : Agenda) : Prop where
  agenda : m.Shows A
  distinct : A.Distinct
  chronological : A.Chronological
  key : ∀ e ∈ A.entries, e.key ≤ intMax
  accounted : m.Accounted
  poised : m.Poised

theorem sound_init : init.Sound .empty :=
  ⟨shows_init, Agenda.distinct_empty, Agenda.chronological_empty, by simp [Agenda.empty],
    accounted_init, poised_init⟩

theorem Sound.step (h : m.Sound A) (hbelow : Below m ev) (hfits : Fits m ev)
    (hok : m.step ev = .ok m') : ∃ A', m'.Sound A' := by
  obtain ⟨haccounted, hclock⟩ := h.accounted.step h.agenda h.key hbelow hok
  have hnonneg := h.accounted.nonneg
  obtain ⟨A', hA', hmoves⟩ := h.agenda.step (T := fun s t => s ≤ t)
    (P := fun C w => C.now < w ∧ w ≤ intMax) (Q := fun _ _ => True) hok hclock (by
      intro r hr hpos B hB
      have hle := hfits r hr
      rw [hB, int32_eq (by omega) hle]
      omega) (fun _ _ _ _ _ _ _ => trivial) (fun _ => trivial)
  exact ⟨A', hA', h.distinct.moves hmoves,
    h.chronological.moves (fun _ _ hst => hst) (fun _ _ hw => hw.1) hmoves,
    hmoves.forall_key h.key (fun _ _ hw => hw.2), haccounted, h.poised.step h.agenda hok⟩

theorem Sound.timely (h : m.Sound A) : m.Timely := by
  have hfired := h.agenda.fired
  have hhistory : (m.fired.map fun f => (⟨f.interrupt, f.toOccur.when⟩ : Keyed ℕ)) ++ A.entries =
      A.history := by
    rw [Agenda.history, hfired, List.map_map]
    rfl
  refine ⟨?_, ?_, ?_, h.accounted.total⟩
  · have hnodup := h.distinct.nodup
    rw [← hhistory, List.map_append, List.map_map] at hnodup
    exact (List.nodup_append.1 hnodup).1
  · intro f hf
    refine h.distinct.due (⟨f.interrupt, f.toOccur.when⟩, f.clock) ?_
    rw [hfired]
    exact List.mem_map_of_mem hf
  · have horder := h.chronological.order
    rw [← hhistory] at horder
    have hfirst : SortedKeys (m.fired.map fun f => ⟨f.interrupt, f.toOccur.when⟩) :=
      (List.pairwise_append.1 horder).1
    rw [SortedKeys, List.pairwise_map] at hfirst
    exact hfirst

/-- If no time wraps around, interrupts fire on time, once and in order, the loop of `OneTick` ends
with nothing due, and the ticks add up. -/
theorem interrupts_timely (events : List Event) (m : Interrupts)
    (hrun : runFrom step init events = .ok m) (hbelow : Meets step Below init events)
    (hfits : Meets step Fits init events) : m.Timely ∧ m.LoopEnds := by
  have hsound : ∃ A, m.Sound A := by
    refine invariant_of_meets (I := fun m => ∃ A, m.Sound A) ?_ ⟨.empty, sound_init⟩
      (hbelow.and hfits) hrun
    rintro m ev m' ⟨A, hA⟩ hev hok
    exact hA.step hev.1 hev.2 hok
  obtain ⟨A, h⟩ := hsound
  refine ⟨h.timely, ?_⟩
  intro hphase reactions hreact
  exact h.agenda.loop_ends h.distinct hphase (h.poised.oneTick hphase) h.accounted.nonneg rfl
    reactions hreact

/-- An interrupt is scheduled 10 ticks ahead, and its handler schedules one `fromNow` ticks ahead.
-/
def tenAhead (fromNow : ℤ) : List Event :=
  [.schedule ⟨0, 0, 10, .diskInt⟩, .oneTick, .check ⟨[⟨0, 0, fromNow, .diskInt⟩], false⟩,
    .check ⟨[], false⟩]

theorem below_tenAhead : ∀ n ∈ [20, intMax], Meets step Below init (tenAhead n) := by
  simp only [List.forall_mem_cons, List.not_mem_nil]
  refine ⟨?_, ?_, fun _ h => h.elim⟩
  · exact .cons ⟨fun _ => by decide, by decide⟩ rfl
      (.cons ⟨fun _ => by decide, by decide⟩ rfl (.cons ⟨fun _ => by decide, by decide⟩ rfl
        (.cons ⟨fun _ => by decide, by decide⟩ rfl trivial)))
  · exact .cons ⟨fun _ => by decide, by decide⟩ rfl
      (.cons ⟨fun _ => by decide, by decide⟩ rfl (.cons ⟨fun _ => by decide, by decide⟩ rfl
        (.cons ⟨fun _ => by decide, by decide⟩ rfl trivial)))

instance (m : Interrupts) (ev : Event) : Decidable (Fits m ev) :=
  inferInstanceAs (Decidable (∀ r ∈ ev.requests, m.clock ev + r.fromNow ≤ intMax))

/-- The second interrupt is for the time 30. -/
def tenThenThirty : List Event :=
  tenAhead 20 ++ [.oneTick, .check ⟨[], false⟩, .oneTick, .check ⟨[], false⟩, .check ⟨[], false⟩]

theorem interrupts_timely_ten :
    ∃ m, runFrom step init tenThenThirty = .ok m ∧
      m.fired.map (fun f => f.toOccur.when) = [10, 30] ∧ m.Timely ∧ m.LoopEnds := by
  have hpass : passes step init tenThenThirty
      (fun m => m.fired.map (fun f => f.toOccur.when) = [10, 30]) = true := rfl
  obtain ⟨m, hm, hfired⟩ := runFrom_of_passes hpass
  refine ⟨m, hm, of_decide_eq_true hfired, interrupts_timely tenThenThirty m hm ?_ ?_⟩
  · iterate 9 refine .cons ⟨fun _ => by decide, by decide⟩ rfl ?_
    trivial
  · iterate 9 refine .cons (by decide) rfl ?_
    trivial

/-- The second interrupt is for `10 + INT_MAX`, which wraps around to a time in the past: it fires
at once, behind one that is for the time 10. -/
theorem wrapped_fires_at_once :
    ∃ m, runFrom step init (tenAhead intMax) = .ok m ∧ Meets step Below init (tenAhead intMax) ∧
      (∀ ev ∈ tenAhead intMax, ∀ r ∈ ev.requests, 0 < r.fromNow) ∧ ¬ m.Timely := by
  have hpass : passes step init (tenAhead intMax)
      (fun m => m.fired.map (fun f => f.toOccur.when) = [10, -2147483639]) = true := rfl
  obtain ⟨m, hm, hfired⟩ := runFrom_of_passes hpass
  refine ⟨m, hm, below_tenAhead intMax (by simp), by decide, ?_⟩
  intro h
  have horder : (m.fired.map fun f => f.toOccur.when).Pairwise (· ≤ ·) :=
    List.pairwise_map.2 h.order
  rw [of_decide_eq_true hfired] at horder
  exact absurd horder (by decide)

/-! ## Interrupts for the same time -/

/-- The first pending interrupt is the only one for its time. -/
def FirstAlone (m : Interrupts) : Prop :=
  match m.pending.entries with
  | [] => True
  | x :: xs => ∀ y ∈ xs, y.2 ≠ x.2

/-- If `CheckIfDue` finds that the first interrupt is not due, then it is the only one for its time.
-/
def Untied (m : Interrupts) (ev : Event) : Prop :=
  ∀ reaction, ev = .check reaction → m.phase ≠ .idle →
    (∀ x ∈ m.pending.entries.head?, m.totalTicks < x.2) → m.FirstAlone

/-- Interrupts for the same time have been fired in the order in which they were scheduled. -/
def InTurn (m : Interrupts) : Prop :=
  m.fired.Pairwise fun f g => f.toOccur.when = g.toOccur.when → f.interrupt < g.interrupt

theorem Shows.firstAlone_iff {e : Keyed ℕ} {es : List (Keyed ℕ)} (h : m.Shows A)
    (he : A.entries = e :: es) : m.FirstAlone ↔ ∀ d ∈ es, d.key ≠ e.key := by
  rw [FirstAlone, h.pending.entries_eq, he]
  simp

/-- No condition is needed for the agenda to stay distinct. -/
theorem Shows.step_distinct (h : m.Shows A) (hd : A.Distinct) (hok : m.step ev = .ok m') :
    ∃ A', m'.Shows A' ∧ A'.Distinct := by
  obtain ⟨A', hA', hmoves⟩ := h.step (T := fun _ _ => True) (P := fun _ _ => True)
    (Q := fun _ _ => True) hok trivial (fun _ _ _ _ _ => trivial) (fun _ _ _ _ _ _ _ => trivial)
    (fun _ => trivial)
  exact ⟨A', hA', hd.moves hmoves⟩

theorem exists_agenda {events : List Event} (hrun : runFrom step init events = .ok m) :
    ∃ A, m.Shows A ∧ A.Distinct := by
  refine Reachable.invariant (I := fun m => ∃ A, m.Shows A ∧ A.Distinct)
    ⟨.empty, shows_init, Agenda.distinct_empty⟩ ?_ ⟨events, hrun⟩
  rintro m ev m' - ⟨A, hA, hd⟩ hok
  exact hA.step_distinct hd hok

theorem Shows.step_inTurn (h : m.Shows A) (hd : A.Distinct) (ht : A.InTurn) (huntied : Untied m ev)
    (hok : m.step ev = .ok m') : ∃ A', m'.Shows A' ∧ A'.Distinct ∧ A'.InTurn := by
  obtain ⟨A', hA', hmoves⟩ := h.step (T := fun _ _ => True) (P := fun _ _ => True)
    (Q := fun e es => ∀ d ∈ es, d.key ≠ e.key) hok trivial (fun _ _ _ _ _ => trivial) (by
      intro reaction hev hp e es he hlt
      refine (h.firstAlone_iff he).1 (huntied reaction hev hp ?_)
      rw [h.pending.entries_eq, he, ← h.now]
      simpa using hlt) (by simp)
  exact ⟨A', hA', hd.moves hmoves, ht.moves hd (fun _ _ hq => hq) hmoves⟩

theorem Shows.inTurn (h : m.Shows A) (ht : A.InTurn) : m.InTurn := by
  have hfired := (List.pairwise_append.1 ht).1
  rw [h.fired, List.map_map, List.pairwise_map] at hfired
  exact hfired

/-- The list that `CheckIfDue` leaves when it finds nothing to fire. -/
theorem Checked.entries_eq_iff (hd : A.Distinct) (h : m.Shows A)
    (hc : Checked m A false reaction false m') :
    m'.pending.entries = m.pending.entries ↔ m.FirstAlone := by
  have hinj : Function.Injective fun x : Keyed ℕ => (some x.item, x.key) := by
    rintro ⟨i, k⟩ ⟨j, l⟩ heq
    simpa using heq
  cases hc with
  | nothing he =>
      refine iff_of_true rfl ?_
      rw [FirstAlone, h.pending.entries_eq, he]
      trivial
  | @early e es _ he hadv hlt hk hs =>
      rw [h.firstAlone_iff he, ← hd.sortedInsert_eq_iff he, hs.pending.entries_eq,
        h.pending.entries_eq, he]
      exact (List.map_injective_iff.2 hinj).eq_iff
  | @quit e _ he hidle hk hs =>
      rw [h.firstAlone_iff he, hs.pending.entries_eq, h.pending.entries_eq, he]
      simp [Agenda.putBack, sortedInsert]

/-- In every state of every run, and for every time and status: a call of `CheckIfDue(FALSE)` that
returns `FALSE` leaves the list as it is if and only if no other interrupt is for the time of the
first one. If this is so in all such calls of a run, then interrupts for the same time fire in the
order in which they were scheduled. -/
theorem check_keeps_order_iff (events : List Event) (m : Interrupts)
    (hrun : runFrom step init events = .ok m) :
    (∀ now status reaction m',
        checkIfDue { m with level := .intOff, totalTicks := now, status := status } false reaction =
          .ok (false, m') →
        (m'.pending.entries = m.pending.entries ↔ m.FirstAlone)) ∧
      (Meets step Untied init events → m.InTurn) := by
  constructor
  · intro now status reaction m' hok
    obtain ⟨A, hA, hd⟩ := exists_agenda hrun
    have hA' : Shows { m with level := .intOff, totalTicks := now, status := status }
        (A.wait now) := ⟨hA.pending, rfl, hA.next, hA.fired, hA.time⟩
    have hd' : (A.wait now).Distinct := ⟨hd.sorted, hd.nodup, hd.lt, hd.due⟩
    have hiff := Checked.entries_eq_iff hd' hA' (hA'.checked hok)
    exact hiff
  · intro hmeets
    have hturn : ∃ A, m.Shows A ∧ A.Distinct ∧ A.InTurn := by
      refine invariant_of_meets (I := fun m => ∃ A, m.Shows A ∧ A.Distinct ∧ A.InTurn) ?_
        ⟨.empty, shows_init, Agenda.distinct_empty, Agenda.inTurn_empty⟩ hmeets hrun
      rintro m ev m' ⟨A, hA, hd, ht⟩ hev hok
      exact hA.step_inTurn hd ht hev hok
    obtain ⟨A, hA, -, ht⟩ := hturn
    exact hA.inTurn ht

/-- Two interrupts for the time 20, and one tick. -/
def twoAtTwenty : List Event :=
  [.schedule ⟨0, 0, 20, .diskInt⟩, .schedule ⟨1, 0, 20, .consoleReadInt⟩, .oneTick]

/-- Two interrupts for the time 10 fire, and a check finds a third one, which is not due. -/
def twoAtTen : List Event :=
  [.schedule ⟨0, 0, 10, .diskInt⟩, .schedule ⟨1, 0, 10, .consoleReadInt⟩,
    .schedule ⟨2, 0, 30, .timerInt⟩, .oneTick, .check ⟨[], false⟩, .check ⟨[], false⟩,
    .check ⟨[], false⟩]

theorem untied_twoAtTen : Meets step Untied init twoAtTen := by
  iterate 4 refine .cons (fun _ h => by cases h) rfl ?_
  iterate 2 refine .cons (fun _ _ _ h => absurd (h _ rfl) (by decide)) rfl ?_
  exact .cons (fun _ _ _ _ _ hy => absurd hy List.not_mem_nil) rfl trivial

theorem check_keeps_order_iff_ten :
    ∃ m, runFrom step init twoAtTen = .ok m ∧ m.pending.entries = [(some 2, 30)] ∧
      (∀ m', checkIfDue { m with level := .intOff, totalTicks := 29, status := m.status } false
          ⟨[], false⟩ = .ok (false, m') → m'.pending.entries = [(some 2, 30)]) ∧
      m.fired.map (fun f => (f.interrupt, f.toOccur.when)) = [(0, 10), (1, 10)] ∧ m.InTurn := by
  have hpass : passes step init twoAtTen
      (fun m => m.pending.entries = [(some 2, 30)] &&
        m.fired.map (fun f => (f.interrupt, f.toOccur.when)) = [(0, 10), (1, 10)]) = true := rfl
  obtain ⟨m, hm, hend⟩ := runFrom_of_passes hpass
  simp only [Bool.and_eq_true, decide_eq_true_eq] at hend
  obtain ⟨hentries, hfired⟩ := hend
  obtain ⟨hkeeps, hturn⟩ := check_keeps_order_iff twoAtTen m hm
  refine ⟨m, hm, hentries, fun m' hm' => ?_, hfired, hturn untied_twoAtTen⟩
  rw [← hentries]
  refine (hkeeps 29 m.status ⟨[], false⟩ m' hm').2 ?_
  rw [FirstAlone, hentries]
  simp

/-- The check at the time 10 changes the order of the two interrupts, and at the time 20 the one
that was scheduled last fires first. -/
theorem check_swaps_interrupts :
    (∃ m m', runFrom step init twoAtTwenty = .ok m ∧
      m.checkIfDue false ⟨[], false⟩ = .ok (false, m') ∧
      m'.pending.entries ≠ m.pending.entries) ∧
    ∃ m, runFrom step init (twoAtTwenty ++ [.check ⟨[], false⟩, .oneTick, .check ⟨[], false⟩,
      .check ⟨[], false⟩, .check ⟨[], false⟩]) = .ok m ∧ ¬ m.InTurn := by
  constructor
  · exact ⟨_, _, rfl, rfl, by decide⟩
  · have hpass : passes step init (twoAtTwenty ++ [.check ⟨[], false⟩, .oneTick, .check ⟨[], false⟩,
        .check ⟨[], false⟩, .check ⟨[], false⟩])
        (fun m => m.fired.map (fun f => (f.toOccur.when, f.interrupt)) =
          [(20, 1), (20, 0)]) = true :=
      rfl
    obtain ⟨m, hm, hfired⟩ := runFrom_of_passes hpass
    refine ⟨m, hm, ?_⟩
    intro h
    have hturn : (m.fired.map fun f => (f.toOccur.when, f.interrupt)).Pairwise
        fun x y => x.1 = y.1 → x.2 < y.2 := List.pairwise_map.2 h
    rw [of_decide_eq_true hfired] at hturn
    exact absurd hturn (by decide)

end Interrupts

end Nachos
