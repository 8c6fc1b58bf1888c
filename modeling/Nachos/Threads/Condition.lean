import Nachos.Threads.Lock
import Mathlib.Data.List.Chain

/-!
# Conditions

The calls of `Condition::Wait` of one thread on one condition go through the same
stages: the call, being put on `waitQ`, being removed from it by a `Signal` or a
`Broadcast`, the return. `phase` reads the stage off the history and accepts no
other order of events; `stage` reads it off the state. They agree in every
reachable state, which matches the returns of `Wait` with the removals one to
one. The section on atomicity shows that nobody sees a thread that has released the
lock inside `Wait` and is not on `waitQ` yet, and the last section that the
thread holds the lock again when `Wait` returns.
-/

namespace Nachos

open Lib



inductive Phase where
  | idle
  | called
  | queued
  | removed
  deriving DecidableEq, Repr

/-- The phase of `t` at the condition `c` after the event; `none` when the event is out
of order. -/
def Phase.after (c : Obj) (t : Tid) (p : Phase) : Event → Option Phase
  | .waitCalled c' t' =>
      if c' = c ∧ t' = t then (if p = .idle then some .called else none) else some p
  | .waitQueued c' t' =>
      if c' = c ∧ t' = t then (if p = .called then some .queued else none) else some p
  | .waitRemoved c' t' _ =>
      if c' = c ∧ t' = t then (if p = .queued then some .removed else none) else some p
  | .waitReturned c' t' =>
      if c' = c ∧ t' = t then (if p = .removed then some .idle else none) else some p
  | _ => some p

/-- The phase after the whole history. -/
def phase (c : Obj) (t : Tid) : List Event → Option Phase
  | [] => some .idle
  | e :: es => (phase c t es).bind fun p => p.after c t e

theorem Phase.after_other {c : Obj} {t : Tid} (p : Phase) {e : Event}
    (h : e.about ≠ some (.condition c)) : p.after c t e = some p := by
  cases e <;> simp_all [Phase.after, Event.about]

theorem phase_eventsOf (c : Obj) (t : Tid) (es : List Event) :
    phase c t (eventsOf (.condition c) es) = phase c t es := by
  induction es with
  | nil => rfl
  | cons e es ih =>
      by_cases he : e.about = some (.condition c)
      · rw [eventsOf_cons_own he, phase, phase, ih]
      · rw [eventsOf_cons_other he, phase, ih]
        cases phase c t es with
        | none => rfl
        | some p => exact (p.after_other he).symm

/-- No two frames of `Wait` are on one stack. -/
theorem not_about_condition {ρ : Type} {f : Frame ρ} {rest : List (Frame ρ)} {c c' : Obj}
    (hp : (f :: rest).Pairwise Above) (hf : f.about = some (.condition c)) {g : Frame ρ}
    (hg : g ∈ rest) : g.about ≠ some (.condition c') := by
  have habove := (List.pairwise_cons.1 hp).1 g hg
  have hcalm : ¬ f.Calm := by
    intro hc
    cases f <;> simp [Frame.about, Frame.Calm] at hf hc
  cases g with
  | waitEnqueue c l old =>
      rcases habove with h | rfl
      · exact absurd h hcalm
      · cases hf
  | waitWoken c l old => rcases habove with rfl | rfl <;> cases hf
  | waitReturn c l =>
      rcases habove with h | rfl | rfl | rfl
      · exact absurd h hcalm
      · cases hf
      · cases hf
      · cases hf
  | _ => simp [Frame.about]

theorem framesOf_rest {ρ : Type} {f : Frame ρ} {rest : List (Frame ρ)} {c c' : Obj}
    (hp : (f :: rest).Pairwise Above) (hf : f.about = some (.condition c)) :
    framesOf (.condition c') rest = [] := by
  rw [framesOf, List.filter_eq_nil_iff]
  intro g hg
  simpa using not_about_condition hp hf hg

theorem framesOf_eq_singleton {ρ : Type} {f : Frame ρ} {fs : List (Frame ρ)} {c : Obj}
    (hp : fs.Pairwise Above) (hf : f.about = some (.condition c)) (hmem : f ∈ fs) :
    framesOf (.condition c) fs = [f] := by
  induction fs with
  | nil => cases hmem
  | cons g gs ih =>
      rcases List.mem_cons.1 hmem with rfl | hmem
      · rw [framesOf_cons_own hf, framesOf_rest hp hf]
      · have hg : g.about ≠ some (.condition c) := fun hg => not_about_condition hp hg hmem hf
        rw [framesOf_cons_other hg]
        exact ih (List.pairwise_cons.1 hp).2 hmem

/-- The event is none of `t` at the condition `c`. -/
def Event.Silent (c : Obj) (t : Tid) (e : Event) : Prop :=
  ∀ p : Phase, p.after c t e = some p

/-- An event is not one of the thread, or moves it from one phase to the next. -/
theorem Phase.after_cases {c : Obj} {t : Tid} {p q : Phase} {e : Event}
    (h : p.after c t e = some q) :
    (e.Silent c t ∧ q = p) ∨ (e = .waitCalled c t ∧ p = .idle ∧ q = .called) ∨
      (e = .waitQueued c t ∧ p = .called ∧ q = .queued) ∨
        (∃ u, e = .waitRemoved c t u ∧ p = .queued ∧ q = .removed) ∨
          (e = .waitReturned c t ∧ p = .removed ∧ q = .idle) := by
  cases e with
  | waitCalled c' t' =>
      by_cases hct : c' = c ∧ t' = t <;> simp_all [Phase.after, Event.Silent]
  | waitQueued c' t' =>
      by_cases hct : c' = c ∧ t' = t <;> simp_all [Phase.after, Event.Silent]
  | waitRemoved c' t' u =>
      by_cases hct : c' = c ∧ t' = t <;> simp_all [Phase.after, Event.Silent]
  | waitReturned c' t' =>
      by_cases hct : c' = c ∧ t' = t <;> simp_all [Phase.after, Event.Silent]
  | _ => simp_all [Phase.after, Event.Silent]

/-- None of the events is one of `t` at the condition `c`. -/
def Silent (c : Obj) (t : Tid) (es : List Event) : Prop :=
  ∀ e ∈ es, e.Silent c t

theorem phase_of_append {c : Obj} {t : Tid} {es₁ es₂ : List Event} {p : Phase}
    (h : phase c t (es₁ ++ es₂) = some p) : ∃ q, phase c t es₂ = some q := by
  induction es₁ generalizing p with
  | nil => exact ⟨p, h⟩
  | cons e es₁ ih =>
      rw [List.cons_append, phase, Option.bind_eq_some_iff] at h
      obtain ⟨q, hq, -⟩ := h
      exact ih hq

/-- The last event of the thread has led to its phase. -/
theorem phase_last {c : Obj} {t : Tid} {es : List Event} {p : Phase}
    (h : phase c t es = some p) (hp : p ≠ .idle) :
    ∃ e fs₁ fs₂ q, es = fs₁ ++ e :: fs₂ ∧ Silent c t fs₁ ∧ phase c t fs₂ = some q ∧
      ¬ e.Silent c t ∧ q.after c t e = some p := by
  induction es with
  | nil =>
      cases h
      exact absurd rfl hp
  | cons e es ih =>
      have h' := h
      rw [phase, Option.bind_eq_some_iff] at h'
      obtain ⟨q, hq, he⟩ := h'
      by_cases hs : e.Silent c t
      · obtain rfl : q = p := by simpa [hs q] using he
        obtain ⟨e', fs₁, fs₂, r, rfl, hsilent, hr⟩ := ih hq
        refine ⟨e', e :: fs₁, fs₂, r, rfl, ?_, hr⟩
        intro e'' hmem
        rcases List.mem_cons.1 hmem with rfl | hmem
        · exact hs
        · exact hsilent e'' hmem
      · exact ⟨e, [], es, q, rfl, by simp [Silent], hq, hs, he⟩

theorem phase_removed {c : Obj} {t : Tid} {es : List Event} (h : phase c t es = some .removed) :
    ∃ u fs₁ fs₂, es = fs₁ ++ .waitRemoved c t u :: fs₂ ∧ Silent c t fs₁ ∧
      phase c t fs₂ = some .queued := by
  obtain ⟨e, fs₁, fs₂, q, rfl, hs, hq, hloud, he⟩ := phase_last h (by simp)
  rcases Phase.after_cases he with ⟨hsilent, -⟩ | ⟨-, -, hp⟩ | ⟨-, -, hp⟩ | ⟨u, rfl, rfl, -⟩ |
    ⟨-, -, hp⟩
  · exact absurd hsilent hloud
  · cases hp
  · cases hp
  · exact ⟨u, fs₁, fs₂, rfl, hs, hq⟩
  · cases hp

theorem phase_queued {c : Obj} {t : Tid} {es : List Event} (h : phase c t es = some .queued) :
    ∃ fs₁ fs₂, es = fs₁ ++ .waitQueued c t :: fs₂ ∧ Silent c t fs₁ := by
  obtain ⟨e, fs₁, fs₂, q, rfl, hs, hq, hloud, he⟩ := phase_last h (by simp)
  rcases Phase.after_cases he with ⟨hsilent, -⟩ | ⟨-, -, hp⟩ | ⟨rfl, -, -⟩ | ⟨u, -, -, hp⟩ |
    ⟨-, -, hp⟩
  · exact absurd hsilent hloud
  · cases hp
  · exact ⟨fs₁, fs₂, rfl, hs⟩
  · cases hp
  · cases hp

/-- Before the return of a `Wait`, the last event of the thread is a removal, and the
last one before that its being put on `waitQ`. -/
theorem phase_returned {c : Obj} {t : Tid} {es₁ es₂ : List Event} {p : Phase}
    (h : phase c t (es₁ ++ .waitReturned c t :: es₂) = some p) :
    ∃ u fs₁ fs₂ gs₁ gs₂, es₂ = fs₁ ++ .waitRemoved c t u :: fs₂ ∧ Silent c t fs₁ ∧
      fs₂ = gs₁ ++ .waitQueued c t :: gs₂ ∧ Silent c t gs₁ := by
  obtain ⟨q, hq⟩ := phase_of_append h
  rw [phase, Option.bind_eq_some_iff] at hq
  obtain ⟨r, hr, hafter⟩ := hq
  obtain rfl : r = .removed := by
    by_contra hne
    simp [Phase.after, hne] at hafter
  obtain ⟨u, fs₁, fs₂, rfl, hs, hq⟩ := phase_removed hr
  obtain ⟨gs₁, gs₂, rfl, hs'⟩ := phase_queued hq
  exact ⟨u, fs₁, _, gs₁, gs₂, rfl, hs, rfl, hs'⟩

theorem Call.Next.waitEnqueue_mem {ρ : Type} {me : Tid} {o : Call ρ}
    {new : List (Frame ρ)} {c l : Obj}
    {old : IntStatus} (h : o.Next me new) (hmem : .waitEnqueue c l old ∈ new) :
    o = .wait c l := by
  cases h <;> simp_all

theorem Frame.Next.waitEnqueue_mem {ρ : Type} {me : Tid} {f : Frame ρ}
    {new : List (Frame ρ)} {c l : Obj}
    {old : IntStatus} (h : f.Next me new) (hmem : .waitEnqueue c l old ∈ new) :
    f = .call (.wait c l) := by
  cases h with
  | call o new h => rw [h.waitEnqueue_mem hmem]
  | _ => simp_all

/-- A frame of `Wait` comes from another one or from the call. -/
theorem Frame.Next.about_condition {ρ : Type} {me : Tid} {f g : Frame ρ} {new : List (Frame ρ)}
    {c : Obj} (h : f.Next me new) (hg : g ∈ new) (hc : g.about = some (.condition c)) :
    f.about = some (.condition c) ∨ ∃ l, f = .call (.wait c l) := by
  cases h with
  | call o new h =>
      cases h with
      | wait c' l old =>
          simp only [List.mem_cons, List.not_mem_nil, or_false] at hg
          rcases hg with rfl | rfl
          · cases hc
          · cases hc
            exact .inr ⟨l, rfl⟩
      | _ => grind [Frame.about]
  | _ => grind [Frame.about]

namespace Kernel

variable {ρ δ α : Type}

/-- The phase of `t` at the condition `c`, read off the state. -/
def stage (k : Kernel ρ δ) (c : Obj) (t : Tid) : Phase :=
  match framesOf (.condition c) (k.stack t) with
  | .waitEnqueue _ _ _ :: _ => .called
  | .waitWoken _ _ _ :: _ =>
      if t ∈ (k.queue (.condition c)).map Keyed.item then .queued else .removed
  | .waitReturn _ _ :: _ => .removed
  | _ => .idle

namespace Condition

/-- The history and the state agree on the phase of every thread. -/
def Matched (c : Obj) (k : Kernel ρ δ) : Prop :=
  ∀ t, phase c t k.log = some (k.stage c t)

variable {c : Obj}

theorem Matched.init (start : ρ) (data : δ) (initialValue : ℕ → ℤ) :
    Matched c (Kernel.init start data initialValue) := by
  intro t
  simp [Kernel.init, phase, stage]

theorem stage_congr {k k' : Kernel ρ δ} {t : Tid}
    (hf : framesOf (.condition c) (k'.stack t) = framesOf (.condition c) (k.stack t))
    (hq : t ∈ (k'.queue (.condition c)).map Keyed.item ↔
      t ∈ (k.queue (.condition c)).map Keyed.item) :
    k'.stage c t = k.stage c t := by
  unfold stage
  rw [hf]
  simp only [hq]

theorem Matched.same {k k' : Kernel ρ δ} (h : Matched c k) (hs : Same (.condition c) k k') :
    Matched c k' := by
  intro t
  rw [← phase_eventsOf, hs.log, phase_eventsOf, h t,
    stage_congr (hs.frames t) (by rw [hs.queue])]

/-- The event of the thread `u` moves it from one phase to the next. -/
theorem Matched.moves {k k' : Kernel ρ δ} (h : Matched c k) (u : Tid) (e : Event)
    (hlog : k'.log = e :: k.log)
    (hu : (k.stage c u).after c u e = some (k'.stage c u))
    (hother : ∀ t, t ≠ u → (∀ p : Phase, p.after c t e = some p) ∧ k'.stage c t = k.stage c t) :
    Matched c k' := by
  intro t
  rw [hlog, phase, h t, Option.bind_some]
  by_cases ht : t = u
  · subst ht
    exact hu
  · obtain ⟨he, hst⟩ := hother t ht
    rw [he, hst]

/-- A call is not pending on top of a frame of `Wait`, except `Yield` and the calls of
`Wait` itself. -/
theorem framesOf_of_issues {cl : Client ρ δ α} {k k₀ : Kernel ρ δ} {lab : Label α} {o : Call ρ}
    (hi : Issues cl k lab o k₀) (ht : k.Tidy) (hy : o ≠ .yield) (hr : ∀ l, o ≠ .release l)
    (ha : ∀ l, o ≠ .acquire l) :
    framesOf (.condition c) (k₀.stack k₀.currentThread) = [] := by
  cases hi with
  | own a o pc data hs hnext hpub => simp [hs]
  | inner o rest hs =>
      have hp := ht.above k.currentThread
      rw [hs, List.pairwise_cons] at hp
      simp only [setStack_stack, setStack_currentThread, Function.update_self]
      rw [framesOf, List.filter_eq_nil_iff]
      intro g hg
      have habove := hp.1 g hg
      have hcalm : ¬ (Frame.call o).Calm := by
        intro hc
        cases o <;> simp [Frame.Calm] at hc
        exact hy rfl
      cases g with
      | waitEnqueue c l old =>
          rcases habove with h | h
          · exact absurd h hcalm
          · exact absurd (Frame.call.inj h) (hr l)
      | waitWoken c l old => rcases habove with h | h <;> cases h
      | waitReturn c l =>
          rcases habove with h | h | h | h
          · exact absurd h hcalm
          · exact absurd (Frame.call.inj h) (ha l)
          · cases h
          · cases h
      | _ => simp [Frame.about]

theorem Matched.wait {k k' : Kernel ρ δ} {l : Obj} (h : Matched c k)
    (hidle : framesOf (.condition c) (k.stack k.currentThread) = []) (hk' : k.wait c l = .ok k') :
    Matched c k' := by
  simp only [Kernel.wait, assertThen_ok, Except.ok.injEq] at hk'
  obtain ⟨-, rfl⟩ := hk'
  refine h.moves k.currentThread (.waitCalled c k.currentThread) rfl ?_ ?_
  · have h₁ : k.stage c k.currentThread = .idle := by simp [stage, hidle]
    rw [h₁]
    simp [stage, Phase.after, framesOf, Frame.about]
  · intro t ht
    refine ⟨fun p => by simp [Phase.after, Ne.symm ht], stage_congr ?_ Iff.rfl⟩
    simp [ht]

/-- `Signal` moves the front of `waitQ` on. -/
theorem Matched.signalOne {k : Kernel ρ δ} (h : Matched c k) (hp : k.Placed) (ht : k.Tidy) :
    Matched c (k.signalOne c) := by
  unfold Kernel.signalOne remove
  cases hes : k.queue (.condition c) with
  | nil => exact h
  | cons e es =>
      have hmem : e.item ∈ (k.queue (.condition c)).map Keyed.item := by simp [hes]
      obtain ⟨f, hf, hhome⟩ := inLoop_of_mem hp (by simp) hmem
      have hframes := framesOf_eq_singleton (ht.above e.item) (Frame.about_of_home hhome) hf
      refine h.moves e.item (.waitRemoved c e.item k.currentThread) rfl ?_ ?_
      · have hnot := hp.seated.front_not_mem hes
        cases f with
        | waitWoken c' l old =>
            have h₁ : k.stage c e.item = .queued := by
              simp [stage, hframes, hes]
            rw [h₁]
            simpa [stage, hframes, Phase.after] using hnot
        | _ => simp [Frame.home] at hhome
      · intro t hte
        refine ⟨fun p => by simp [Phase.after, Ne.symm hte], stage_congr rfl ?_⟩
        simp [hes, hte]

theorem Matched.broadcastLoop {k : Kernel ρ δ} (h : Matched c k) (hp : k.Awake) (ht : k.Tidy)
    (n : ℕ) : Matched c (broadcastLoop c n k) := by
  induction n generalizing k with
  | zero => exact h
  | succ n ih =>
      obtain ⟨st, qu, lg, hk⟩ := k.signalOne_eq c
      have ht' : (k.signalOne c).Tidy := by
        rw [hk]
        exact ⟨ht.above, ht.fresh, ht.parked⟩
      exact ih (h.signalOne hp.toPlaced ht) (hp.signalOne c) ht'

theorem Matched.enqueue {k k' : Kernel ρ δ} {l : Obj} {old : IntStatus} {rest : List (Frame ρ)}
    (h : Matched c k) (ht : k.Tidy) (hs : k.stack k.currentThread = .waitEnqueue c l old :: rest)
    (hk' : (k.setStack rest).waitEnqueue c l old = .ok k') : Matched c k' := by
  simp only [Kernel.waitEnqueue, sleep, assertThen_ok, Except.ok.injEq] at hk'
  obtain ⟨-, rfl⟩ := hk'
  have habove := ht.above k.currentThread
  rw [hs] at habove
  refine h.moves k.currentThread (.waitQueued c k.currentThread) rfl ?_ ?_
  · have h₁ : k.stage c k.currentThread = .called := by simp [stage, hs, framesOf, Frame.about]
    rw [h₁]
    have hmem := (perm_sortedInsert ⟨k.currentThread, negPriority (k.priority k.currentThread)⟩
      (k.queue (.condition c))).map Keyed.item
    have hmem' := (hmem.mem_iff (a := k.currentThread)).2 (by simp)
    simp only [List.mem_map] at hmem'
    simp [stage, Phase.after, Frame.about, framesOf, hmem']
  · intro t htc
    refine ⟨fun p => by simp [Phase.after, Ne.symm htc], stage_congr (by simp [htc]) ?_⟩
    have hmem := (perm_sortedInsert ⟨k.currentThread, negPriority (k.priority k.currentThread)⟩
      (k.queue (.condition c))).map Keyed.item
    simpa [htc] using hmem.mem_iff (a := t)

theorem Matched.woken {k : Kernel ρ δ} {l : Obj} {old : IntStatus} {rest : List (Frame ρ)}
    (h : Matched c k) (hp : k.Placed)
    (hs : k.stack k.currentThread = .waitWoken c l old :: rest) :
    Matched c ((k.setStack rest).waitWoken c l old) := by
  have hawake : k.Awake := hp.awake_of_not_inSleep (by simp [InSleep, hs])
  have hnot : k.currentThread ∉ (k.queue (.condition c)).map Keyed.item := by
    rw [mem_queue_iff hp, hawake.seat_current]
    simp
  intro t
  rw [show ((k.setStack rest).waitWoken c l old).log = k.log from rfl, h t]
  by_cases ht : t = k.currentThread
  · subst ht
    simp_all [stage, waitWoken, Frame.about, framesOf]
  · have hstage : ((k.setStack rest).waitWoken c l old).stage c t = k.stage c t :=
      stage_congr (by simp [waitWoken, ht]) Iff.rfl
    rw [hstage]

theorem Matched.returned {k : Kernel ρ δ} {l : Obj} {rest : List (Frame ρ)}
    (h : Matched c k) (ht : k.Tidy) (hs : k.stack k.currentThread = .waitReturn c l :: rest) :
    Matched c ((k.setStack rest).note (.waitReturned c k.currentThread)) := by
  have habove := ht.above k.currentThread
  rw [hs] at habove
  refine h.moves k.currentThread (.waitReturned c k.currentThread) rfl ?_ ?_
  · have h₁ : k.stage c k.currentThread = .removed := by simp [stage, hs, framesOf, Frame.about]
    rw [h₁]
    simp [stage, Phase.after, framesOf_rest habove rfl]
  · intro t htc
    exact ⟨fun p => by simp [Phase.after, Ne.symm htc], stage_congr (by simp [htc]) Iff.rfl⟩

theorem Matched.step {cl : Client ρ δ α} {k k' : Kernel ρ δ} {lab : Label α} (h : Matched c k)
    (ht : k.Tidy) (hp : k.Placed) (hk' : Kernel.step cl k lab = .ok k') : Matched c k' := by
  rcases step_object (x := .condition c) (by simp) ht hp hk' with
    hs | ⟨o, k₀, hi, ho, he⟩ | ⟨f, rest, hs, hf, hne, -, hr⟩ | ⟨a, s, hx, -⟩
  · exact h.same hs
  · have h₀ : Matched c k₀ := h.same hi.same
    have hp₀ := hi.awake hp
    have ht₀ := hi.tidy ht hp
    cases o with
    | wait c' l =>
        obtain rfl : c' = c := by simpa [Call.about] using ho
        exact h₀.wait (framesOf_of_issues hi ht (by simp) (by simp) (by simp)) he
    | signal c' l =>
        obtain rfl : c' = c := by simpa [Call.about] using ho
        simp only [exec, signal, assertThen_ok, Except.ok.injEq] at he
        obtain ⟨-, rfl⟩ := he
        exact h₀.signalOne hp₀.toPlaced ht₀
    | broadcast c' l =>
        obtain rfl : c' = c := by simpa [Call.about] using ho
        simp only [exec, broadcast, assertThen_ok, Except.ok.injEq] at he
        obtain ⟨-, rfl⟩ := he
        exact h₀.broadcastLoop hp₀ ht₀ _
    | _ => simp [Call.about] at ho
  · cases f with
    | waitEnqueue c' l old =>
        obtain rfl : c' = c := by simpa [Frame.about] using hf
        cases lab with
        | go => exact h.enqueue ht hs hr
        | _ => cases hr
    | waitWoken c' l old =>
        obtain rfl : c' = c := by simpa [Frame.about] using hf
        cases lab with
        | go =>
            cases hr
            exact h.woken hp hs
        | _ => cases hr
    | waitReturn c' l =>
        obtain rfl : c' = c := by simpa [Frame.about] using hf
        cases lab with
        | go =>
            simp only [resume, assertThen_ok, Except.ok.injEq] at hr
            obtain ⟨-, rfl⟩ := hr
            exact h.returned ht hs
        | _ => cases hr
    | _ => simp [Frame.about] at hf
  · cases hx

end Condition

theorem Runs.matched {cl : Client ρ δ α} {start : ρ} {data : δ} {initialValue : ℕ → ℤ}
    {k : Kernel ρ δ} (h : Runs cl start data initialValue k) (c : Obj) : Condition.Matched c k :=
  Reachable.invariant (I := Condition.Matched c) (.init start data initialValue)
    (fun _ _ _ hk hi hs => hi.step (Runs.tidy hk) (Runs.placed hk) hs) h

/-! ## What `Signal` and `Broadcast` do -/

/-- The threads that are not on `waitQ` are where they were. -/
structure Untouched (c : Obj) (k k' : Kernel ρ δ) : Prop where
  stack : k'.stack = k.stack
  status : ∀ t, t ∉ (k.queue (.condition c)).map Keyed.item → k'.status t = k.status t
  queue : ∀ q t, t ∉ (k.queue (.condition c)).map Keyed.item →
    occ k'.queue q t = occ k.queue q t

theorem signalOne_untouched (k : Kernel ρ δ) (c : Obj) : Untouched c k (k.signalOne c) := by
  unfold signalOne remove
  cases hes : k.queue (.condition c) with
  | nil => exact ⟨rfl, fun _ _ => rfl, fun _ _ _ => rfl⟩
  | cons e es =>
      refine ⟨rfl, ?_, ?_⟩
      · intro t ht
        have hne : t ≠ e.item := by
          rintro rfl
          simp [hes] at ht
        simp [hne]
      · intro q t ht
        have hne : ¬ e.item = t := by
          rintro rfl
          simp [hes] at ht
        have h₁ := occ_of_cons hes q t
        have h₂ := occ_update_insert (Function.update k.queue (.condition c) es) .readyList q
          ⟨e.item, negPriority (k.priority e.item)⟩ t
        simp only [hne, and_false, if_false, Nat.add_zero] at h₁ h₂
        rw [h₁, ← h₂]
        rfl

theorem signalOne_queue (k : Kernel ρ δ) (c : Obj) :
    (k.signalOne c).queue (.condition c) = (k.queue (.condition c)).tail := by
  unfold signalOne remove
  cases hes : k.queue (.condition c) with
  | nil => simp [hes]
  | cons e es => simp

theorem Untouched.trans {c : Obj} {k k₁ k₂ : Kernel ρ δ} (h : Untouched c k k₁)
    (h' : Untouched c k₁ k₂)
    (hq : ∀ t, t ∉ (k.queue (.condition c)).map Keyed.item →
      t ∉ (k₁.queue (.condition c)).map Keyed.item) : Untouched c k k₂ where
  stack := h'.stack.trans h.stack
  status t ht := (h'.status t (hq t ht)).trans (h.status t ht)
  queue q t ht := (h'.queue q t (hq t ht)).trans (h.queue q t ht)

theorem broadcastLoop_untouched (k : Kernel ρ δ) (c : Obj) (n : ℕ) :
    Untouched c k (broadcastLoop c n k) := by
  induction n generalizing k with
  | zero => exact ⟨rfl, fun _ _ => rfl, fun _ _ _ => rfl⟩
  | succ n ih =>
      refine (k.signalOne_untouched c).trans (ih _) ?_
      intro t ht
      rw [signalOne_queue]
      exact fun hmem => ht (List.map_subset _ (fun _ => List.mem_of_mem_tail) hmem)

theorem broadcastLoop_queue (k : Kernel ρ δ) (c : Obj) (n : ℕ) :
    (broadcastLoop c n k).queue (.condition c) = (k.queue (.condition c)).drop n := by
  induction n generalizing k with
  | zero => rfl
  | succ n ih =>
      rw [broadcastLoop, ih, signalOne_queue, List.drop_tail]

/-- A `Signal` takes one waiter off `waitQ`, if there is one, and touches no thread
that is not on it. -/
theorem signal_spec {k k' : Kernel ρ δ} {c l : Obj} (h : k.signal c l = .ok k') :
    (k'.queue (.condition c)).length = (k.queue (.condition c)).length - 1 ∧ Untouched c k k' := by
  simp only [signal, assertThen_ok, Except.ok.injEq] at h
  obtain ⟨-, rfl⟩ := h
  exact ⟨by rw [signalOne_queue, List.length_tail], k.signalOne_untouched c⟩

theorem broadcast_spec {k k' : Kernel ρ δ} {c l : Obj} (h : k.broadcast c l = .ok k') :
    k'.queue (.condition c) = [] ∧ Untouched c k k' := by
  simp only [broadcast, assertThen_ok, Except.ok.injEq] at h
  obtain ⟨-, rfl⟩ := h
  exact ⟨by rw [broadcastLoop_queue, List.drop_length], k.broadcastLoop_untouched c _⟩

/-! ## Atomicity of `Wait` -/

/-- A thread that has released the lock inside `Wait` and is not on `waitQ` yet is the
current one, with interrupts off up to its `Sleep`. -/
structure Released (k : Kernel ρ δ) (t : Tid) (c l : Obj) (old : IntStatus) : Prop where
  current : t = k.currentThread
  level : k.level = .intOff
  top : ∃ rest, k.stack t = .call (.release l) :: .waitEnqueue c l old :: rest ∨
    k.stack t = .setLevel .intOff :: .waitEnqueue c l old :: rest ∨
      k.stack t = .waitEnqueue c l old :: rest

def Atomic (k : Kernel ρ δ) : Prop :=
  ∀ t c l old, .waitEnqueue c l old ∈ k.stack t → k.Released t c l old

theorem not_waitEnqueue_mem {c l : Obj} {old : IntStatus} {rest : List (Frame ρ)}
    (hp : (Frame.waitEnqueue c l old :: rest).Pairwise Above) (c' l' : Obj) (old' : IntStatus) :
    .waitEnqueue c' l' old' ∉ rest := fun hmem => not_about_condition hp rfl hmem rfl

/-- While the current thread has released the lock and is not on `waitQ` yet, a
step is the next part of `Wait`. -/
theorem Released.step {cl : Client ρ δ α} {k k' : Kernel ρ δ} {lab : Label α} {c l : Obj}
    {old : IntStatus} (h : k.Released k.currentThread c l old) (ht : k.Tidy)
    (hk' : Kernel.step cl k lab = .ok k') :
    k'.Released k.currentThread c l old ∧
        (∀ c' l' old', .waitEnqueue c' l' old' ∈ k'.stack k.currentThread →
          c' = c ∧ l' = l ∧ old' = old) ∨
      ∀ c' l' old', .waitEnqueue c' l' old' ∉ k'.stack k.currentThread := by
  obtain ⟨-, hlevel, rest, hs | hs | hs⟩ := h
  · have habove := ht.above k.currentThread
    rw [hs] at habove
    have hrest := not_waitEnqueue_mem habove.tail
    have he := exec_of_top hk' hs
    simp only [exec, release, assertThen_ok, Except.ok.injEq] at he
    obtain ⟨-, rfl⟩ := he
    obtain ⟨st, qu, hw⟩ := (((k.setStack (.waitEnqueue c l old :: rest)).disable.push
      (.setLevel k.level)).note (.releaseCalled l k.currentThread)).wakeOne_eq (.lock l)
    simp only [setStack_level, setStack_currentThread, hw]
    refine .inl ⟨⟨rfl, rfl, rest, .inr (.inl (by simp [hlevel]))⟩, ?_⟩
    intro c' l' old' hmem
    simpa [hrest] using hmem
  · have habove := ht.above k.currentThread
    rw [hs] at habove
    have hrest := not_waitEnqueue_mem habove.tail
    have hr := resume_of_top hk' hs (by simp)
    cases lab with
    | go =>
        cases hr
        refine .inl ⟨⟨rfl, by simp [Kernel.setLevel], rest, .inr (.inr ?_)⟩, ?_⟩
        · simp [Kernel.setLevel]
        · intro c' l' old' hmem
          simpa [Kernel.setLevel, hrest] using hmem
    | _ => cases hr
  · have habove := ht.above k.currentThread
    rw [hs] at habove
    have hrest := not_waitEnqueue_mem habove
    have hr := resume_of_top hk' hs (by simp)
    cases lab with
    | go =>
        simp only [resume, waitEnqueue, sleep, assertThen_ok, Except.ok.injEq] at hr
        obtain ⟨-, rfl⟩ := hr
        refine .inr fun c' l' old' hmem => ?_
        simp [hrest] at hmem
    | _ => cases hr

theorem Atomic.step {cl : Client ρ δ α} {k k' : Kernel ρ δ} {lab : Label α} (h : k.Atomic)
    (ht : k.Tidy) (hp : k.Placed) (hk' : Kernel.step cl k lab = .ok k') : k'.Atomic := by
  intro t c l old hmem
  have hother : t = k.currentThread := by
    rcases step_stack_cases hp.current_lt hk' t with heq | ⟨rfl, -⟩ | ⟨-, -, heq⟩
    · rw [heq] at hmem
      exact (h t c l old hmem).current
    · rfl
    · simp [heq] at hmem
  subst hother
  by_cases hcur : ∃ c l old, .waitEnqueue c l old ∈ k.stack k.currentThread
  · obtain ⟨c₁, l₁, old₁, hm⟩ := hcur
    rcases (h _ _ _ _ hm).step ht hk' with ⟨hrel, heq⟩ | hnone
    · obtain ⟨rfl, rfl, rfl⟩ := heq c l old hmem
      exact hrel
    · exact absurd hmem (hnone c l old)
  · have hnone : ∀ c l old, .waitEnqueue c l old ∉ k.stack k.currentThread := by
      intro c l old hm
      exact hcur ⟨c, l, old, hm⟩
    rcases step_cases hk' with ⟨o, k₀, hi, he⟩ | ⟨f, rest, hs, hcall, hr⟩
    · have hnone₀ : ∀ c l old, .waitEnqueue c l old ∉ k₀.stack k₀.currentThread := by
        intro c l old hm
        have := (hi.same.mem_stack (x := .condition c) (f := .waitEnqueue c l old) rfl
          k.currentThread).1 (hi.currentThread_eq ▸ hm)
        exact hnone c l old this
      obtain ⟨new, hn, hpush⟩ := exec_pushes (hi.awake hp).toPlaced.current_lt he
      obtain rfl : o = .wait c l := by
        rw [hpush.stack, hi.currentThread_eq, Function.update_self, List.mem_append] at hmem
        rcases hmem with hmem | hmem
        · exact hn.waitEnqueue_mem hmem
        · exact absurd (hi.currentThread_eq ▸ hmem) (hnone₀ c l old)
      simp only [exec, wait, assertThen_ok, Except.ok.injEq] at he
      obtain ⟨-, rfl⟩ := he
      rw [← hi.currentThread_eq] at hmem ⊢
      obtain rfl : old = k₀.level := by simpa [hnone₀] using hmem
      exact ⟨rfl, rfl, k₀.stack k₀.currentThread, .inl (by simp)⟩
    · obtain ⟨new, hn, hpush⟩ := resume_pushes (k := k.setStack rest) hp.current_lt hr
      have hstack := hpush.of_pop.1
      rw [hstack, Function.update_self, List.mem_append] at hmem
      rcases hmem with hmem | hmem
      · exact absurd (hn.waitEnqueue_mem hmem) (hcall _)
      · exact absurd (by simp [hs, hmem]) (hnone c l old)

theorem Atomic.init (start : ρ) (data : δ) (initialValue : ℕ → ℤ) :
    (Kernel.init start data initialValue).Atomic := by
  intro t c l old hmem
  cases hmem

theorem Runs.atomic {cl : Client ρ δ α} {start : ρ} {data : δ} {initialValue : ℕ → ℤ}
    {k : Kernel ρ δ} (h : Runs cl start data initialValue k) : k.Atomic :=
  Reachable.invariant (Atomic.init start data initialValue)
    (fun _ _ _ hk hi hs => hi.step (Runs.tidy hk) (Runs.placed hk) hs) h

/-! ## The return of `Wait` -/

end Kernel

/-- The frame `g` stands directly on top of `f`. -/
def Onto {ρ : Type} (g : Frame ρ) : Frame ρ → Prop
  | .waitReturn _ l => g = .call (.acquire l) ∨ g = .acquireReturn l
  | _ => True

theorem Call.Next.onto {ρ : Type} {me : Tid} {o : Call ρ} {new : List (Frame ρ)}
    (h : o.Next me new) : new.IsChain Onto := by
  cases h <;> simp [Onto]

theorem Frame.Next.onto {ρ : Type} {me : Tid} {f : Frame ρ} {new : List (Frame ρ)}
    (h : f.Next me new) : new.IsChain Onto := by
  cases h with
  | call o new h => exact h.onto
  | _ => simp [Onto]

theorem Onto.next {ρ : Type} {me : Tid} {f g g' : Frame ρ} {new : List (Frame ρ)}
    (ho : Onto g f) (h : g.Next me new) (hg : g' ∈ new.getLast?) : Onto g' f := by
  cases f with
  | waitReturn c l =>
      rcases ho with rfl | rfl
      · cases h with
        | call _ _ h => cases h <;> simp_all [Onto]
      · cases h
        cases hg
  | _ => trivial

theorem Rewrites.onto {ρ : Type} {me : Tid} {fs gs : List (Frame ρ)} (h : Rewrites me fs gs)
    (hc : fs.IsChain Onto) : gs.IsChain Onto := by
  cases h with
  | own o new ho h => exact h.onto
  | frame f new rest h =>
      rw [List.isChain_cons] at hc
      rw [List.isChain_append]
      exact ⟨h.onto, hc.2, fun g hg f' hf' => (hc.1 f' hf').next h hg⟩

theorem Frame.Next.not_waitReturn {ρ : Type} {me : Tid} {f : Frame ρ} {new : List (Frame ρ)}
    {c l : Obj} {fs : List (Frame ρ)} (h : f.Next me new) : new ≠ .waitReturn c l :: fs := by
  cases h with
  | call o new h => cases h <;> simp
  | _ => simp

namespace Kernel

variable {ρ δ α : Type}

theorem Runs.onto {cl : Client ρ δ α} {start : ρ} {data : δ} {initialValue : ℕ → ℤ}
    {k : Kernel ρ δ} (h : Runs cl start data initialValue k) (t : Tid) :
    (k.stack t).IsChain Onto :=
  h.stacks (S := fun _ fs => fs.IsChain Onto) (fun _ => .nil) (fun _ => .singleton _)
    (fun _ _ _ hr => hr.onto) t

/-- A thread that is to return from `Wait` holds the lock. -/
def Reacquired (k : Kernel ρ δ) : Prop :=
  ∀ t c l rest, k.stack t = .waitReturn c l :: rest → k.threadHeld l = some t

theorem Reacquired.step {cl : Client ρ δ α} {k k' : Kernel ρ δ} {lab : Label α}
    (h : k.Reacquired) (ht : k.Tidy) (hp : k.Placed) (hl : ∀ l, Lock.Sound l k)
    (honto : ∀ t, (k.stack t).IsChain Onto)
    (hk' : Kernel.step cl k lab = .ok k') : k'.Reacquired := by
  -- a thread whose topmost frame is not a call of `Release` keeps the lock
  have hkeep : ∀ t l f fs, k.stack t = f :: fs → f ≠ .call (.release l) →
      k.threadHeld l = some t → k'.threadHeld l = some t := by
    intro t l f fs hs hf hheld
    rcases (hl l).held_step ht hp hk' hheld with hheld' | ⟨rfl, k₀, hi, -⟩
    · exact hheld'
    · cases hi with
      | own a o pc data hs' hnext hpub => simp [hs] at hs'
      | inner o rest hs' =>
          rw [hs] at hs'
          cases hs'
          exact absurd rfl hf
  intro t c l rest hs'
  rcases step_stack_cases hp.current_lt hk' t with heq | ⟨rfl, hr⟩ | ⟨-, -, heq⟩
  · rw [heq] at hs'
    exact hkeep t l _ _ hs' (by simp) (h t c l rest hs')
  · rw [hs'] at hr
    generalize hfs : k.stack k.currentThread = fs at hr
    generalize hgs : Frame.waitReturn c l :: rest = gs at hr
    cases hr with
    | own o new ho hn => exact absurd hgs.symm (Frame.Next.call o _ hn).not_waitReturn
    | frame f new fs hn =>
        cases new with
        | cons g new =>
            cases hgs
            exact absurd rfl hn.not_waitReturn
        | nil =>
            cases hgs
            have hchain := honto k.currentThread
            rw [hfs, List.isChain_cons_cons] at hchain
            have habove := ht.above k.currentThread
            rw [hfs, List.pairwise_cons] at habove
            rcases hchain.1 with rfl | rfl
            · cases hn with
              | call _ _ hn => cases hn
            · have hrest : .acquireRetest l ∉ k.stack k.currentThread := by
                rw [hfs]
                intro hmem
                rcases List.mem_cons.1 hmem with heq | hmem
                · cases heq
                · have := habove.1 _ hmem
                  simp [Above] at this
              have hheld := ((hl l).holder k.currentThread).2 (.inr ⟨by simp [hfs], hrest⟩)
              exact hkeep _ l _ _ hfs (by simp) hheld
  · simp [heq] at hs'

theorem Runs.reacquired {cl : Client ρ δ α} {start : ρ} {data : δ} {initialValue : ℕ → ℤ}
    {k : Kernel ρ δ} (h : Runs cl start data initialValue k) : k.Reacquired := by
  refine Reachable.invariant (I := Reacquired) ?_ ?_ h
  · intro t c l rest hs
    cases hs
  · intro k lab k' hk hi hs
    exact hi.step (Runs.tidy hk) (Runs.placed hk) (Runs.lock hk) (Runs.onto hk) hs

theorem stage_of_not_current {k : Kernel ρ δ} (h : k.Atomic) {t : Tid} (ht : t ≠ k.currentThread)
    (c : Obj) : k.stage c t ≠ .called := by
  intro hstage
  unfold stage at hstage
  split at hstage
  · rename_i c' l old rest hfs
    have hmem : .waitEnqueue c' l old ∈ framesOf (.condition c) (k.stack t) := by simp [hfs]
    exact ht (h t c' l old (mem_framesOf.1 hmem).1).current
  · split at hstage <;> cases hstage
  · cases hstage
  · cases hstage

theorem mem_of_stage_queued {k : Kernel ρ δ} {c : Obj} {t : Tid} (h : k.stage c t = .queued) :
    t ∈ (k.queue (.condition c)).map Keyed.item := by
  unfold stage at h
  split at h
  · cases h
  · split at h
    · assumption
    · cases h
  · cases h
  · cases h

/-- Every return of `Wait` is matched with the removal from `waitQ` that precedes it,
and this one with the insertion that precedes it; a `Signal` leaves one waiter
less, a `Broadcast` none, and neither touches a thread that is not on `waitQ`;
whoever looks at a thread inside `Wait` finds it on `waitQ` or removed from it; and the
thread holds the lock when `Wait` returns. -/
theorem condition_semantics (cl : Client ρ δ α) (start : ρ) (data : δ) (initialValue : ℕ → ℤ)
    (k : Kernel ρ δ) (h : Runs cl start data initialValue k) (c : Obj) :
    (∀ t es₁ es₂, k.log = es₁ ++ .waitReturned c t :: es₂ →
      ∃ u fs₁ fs₂ gs₁ gs₂, es₂ = fs₁ ++ .waitRemoved c t u :: fs₂ ∧ Silent c t fs₁ ∧
        fs₂ = gs₁ ++ .waitQueued c t :: gs₂ ∧ Silent c t gs₁) ∧
      (∀ lab l k₀ k', Issues cl k lab (.signal c l) k₀ → k₀.exec (.signal c l) = .ok k' →
        (k'.queue (.condition c)).length = (k.queue (.condition c)).length - 1 ∧
          Untouched c k₀ k') ∧
        (∀ lab l k₀ k', Issues cl k lab (.broadcast c l) k₀ → k₀.exec (.broadcast c l) = .ok k' →
          k'.queue (.condition c) = [] ∧ Untouched c k₀ k') ∧
          (∀ t, t ≠ k.currentThread → phase c t k.log = some .idle ∨
            t ∈ (k.queue (.condition c)).map Keyed.item ∨ phase c t k.log = some .removed) ∧
            (∀ t l rest, k.stack t = .waitReturn c l :: rest → k.threadHeld l = some t) := by
  refine ⟨?_, ?_, ?_, ?_, fun t l rest hs => h.reacquired t c l rest hs⟩
  · intro t es₁ es₂ hlog
    have hphase := h.matched c t
    rw [hlog] at hphase
    exact phase_returned hphase
  · intro lab l k₀ k' hi he
    rw [← hi.same.queue (x := .condition c)]
    exact signal_spec he
  · intro lab l k₀ k' _ he
    exact broadcast_spec he
  · intro t ht
    rw [h.matched c t]
    cases hstage : k.stage c t with
    | idle => exact .inl rfl
    | called => exact absurd hstage (stage_of_not_current h.atomic ht c)
    | queued => exact .inr (.inl (mem_of_stage_queued hstage))
    | removed => exact .inr (.inr rfl)

/-- The main thread waits on a condition, and the thread it has forked signals. -/
def handOver : Tid → ℕ → Option (Call ℕ)
  | 0, 0 => some (.fork 1 0 0)
  | 0, 1 => some (.acquire (.user 0))
  | 0, 2 => some (.wait (.user 0) (.user 0))
  | 1, 0 => some (.acquire (.user 0))
  | 1, 1 => some (.signal (.user 0) (.user 0))
  | 1, 2 => some (.release (.user 0))
  | 1, 3 => some .yield
  | _, _ => none

theorem condition_semantics_handOver :
    ∃ k, Runs (scripted handOver) 0 () (fun _ => 0) k ∧
      ∃ es, k.log = .waitReturned (.user 0) 0 :: es ∧
        ∃ u fs₁ fs₂ gs₁ gs₂, es = fs₁ ++ .waitRemoved (.user 0) 0 u :: fs₂ ∧
          Silent (.user 0) 0 fs₁ ∧ fs₂ = gs₁ ++ .waitQueued (.user 0) 0 :: gs₂ ∧
            Silent (.user 0) 0 gs₁ := by
  have hpass : passes (step (scripted handOver)) (init 0 () fun _ => 0)
      [.act (), .go, .go, .go, .act (), .go, .go, .go, .go, .act (), .go, .go, .go, .go,
        .go, .go, .go, .act (), .go, .go, .go, .go, .act (), .act (), .go, .go, .go, .act (),
        .go, .go, .go, .go, .go, .go, .go, .go, .go, .go, .go]
      (fun k => k.log.head? = some (.waitReturned (.user 0) 0)) = true := by
    decide +kernel
  obtain ⟨k, hk, hlog⟩ := exists_of_passes _ hpass
  have hrun := condition_semantics (scripted handOver) 0 () (fun _ => 0) k hk (.user 0)
  rw [decide_eq_true_eq, List.head?_eq_some_iff] at hlog
  obtain ⟨es, hlog⟩ := hlog
  exact ⟨k, hk, es, hlog, hrun.1 0 [] es hlog⟩

end Kernel

end Nachos
