import Nachos.Threads.Levels

/-!
# The scheduler's calls

`schedulerCalls` lists the interrupt levels at which the routines of the scheduler are called
in a step of the machine, and the ready list changes in no other step. All of them are called
with interrupts off, except by `Signal` and `Broadcast`, which do not change the level.
-/

namespace Nachos

open Lib



namespace Kernel

variable {ρ δ α : Type}

/-- The level at which `ReadyToRun` is called for the front of the queue, if there is one. -/
def wakeCalls (k : Kernel ρ δ) (q : QueueId) : List IntStatus :=
  match k.queue q with
  | [] => []
  | _ :: _ => [k.level]

/-- The loop of `Condition::Broadcast`. -/
def broadcastCalls (c : Obj) : ℕ → Kernel ρ δ → List IntStatus
  | 0, _ => []
  | n + 1, k => k.wakeCalls (.condition c) ++ broadcastCalls c n (k.signalOne c)

/-- The `V` calls of a handler. -/
def handlerCalls : List ℕ → Kernel ρ δ → List IntStatus
  | [], _ => []
  | s :: sems, k => k.wakeCalls (.semaphore s) ++ handlerCalls sems (k.vBody s)

def handleCalls (cl : Client ρ δ α) (k : Kernel ρ δ) (a : α) : List IntStatus :=
  match cl.handler a k.data with
  | none => []
  | some (sems, data) => handlerCalls sems { k with data := data }

/-- The levels at which a call of the current thread calls the scheduler. A call whose
assertion fails does not come so far. -/
def execCalls (k : Kernel ρ δ) : Call ρ → List IntStatus
  | .V s => k.disable.wakeCalls (.semaphore s)
  | .release l =>
      if k.locked l = true ∧ k.threadHeld l = some k.currentThread then
        k.disable.wakeCalls (.lock l)
      else
        []
  | .signal c l =>
      if k.threadHeld l = some k.currentThread then k.wakeCalls (.condition c) else []
  | .broadcast c l =>
      if k.threadHeld l = some k.currentThread then
        broadcastCalls c (k.queue (.condition c)).length k
      else
        []
  -- `FindNextToRun`, and `ReadyToRun` when it has found a thread
  | .yield => k.disable.level :: k.disable.wakeCalls .readyList
  | .fork t _ _ => if t = k.numThreads then [k.disable.level] else []
  | _ => []

/-- The levels at which `Scheduler::ReadyToRun` and `Scheduler::FindNextToRun` are called in
the step with the label `lab`. -/
def schedulerCalls (cl : Client ρ δ α) (k : Kernel ρ δ) (lab : Label α) : List IntStatus :=
  match k.stack k.currentThread, lab with
  | [], .act a =>
      match cl.next k.currentThread (k.pc k.currentThread) k.data k.view a with
      | some (o, pc, data) => if o.isPublic then (k.advance pc data).execCalls o else []
      | none => []
  | .call o :: rest, .go => (k.setStack rest).execCalls o
  | .firing :: _, .interrupt a => handleCalls cl k a
  | .sleepLoop :: _, .go => [k.level]
  | .sleepLoop :: _, .interrupt a => k.level :: handleCalls cl k a
  | _, _ => []

/-- `Signal` or `Broadcast` finds a waiter while interrupts are on. -/
def WakesEnabled (cl : Client ρ δ α) (k : Kernel ρ δ) (lab : Label α) : Prop :=
  ∃ c l, (callOf cl k lab = some (.signal c l) ∨ callOf cl k lab = some (.broadcast c l)) ∧
    k.threadHeld l = some k.currentThread ∧ k.queue (.condition c) ≠ [] ∧ k.level = .intOn

theorem mem_wakeCalls {k : Kernel ρ δ} {q : QueueId} {lv : IntStatus} :
    lv ∈ k.wakeCalls q ↔ k.queue q ≠ [] ∧ lv = k.level := by
  unfold wakeCalls
  split <;> simp_all

theorem signalOne_level (k : Kernel ρ δ) (c : Obj) : (k.signalOne c).level = k.level := by
  obtain ⟨st, qu, lg, h⟩ := k.signalOne_eq c
  rw [h]

theorem mem_broadcastCalls {k : Kernel ρ δ} {c : Obj} {n : ℕ} {lv : IntStatus}
    (h : lv ∈ broadcastCalls c n k) : lv = k.level := by
  induction n generalizing k with
  | zero => cases h
  | succ n ih =>
      rcases List.mem_append.1 h with h | h
      · exact (mem_wakeCalls.1 h).2
      · exact (ih h).trans (k.signalOne_level c)

theorem mem_handlerCalls {k : Kernel ρ δ} {sems : List ℕ} {lv : IntStatus}
    (h : lv ∈ handlerCalls sems k) : lv = k.level := by
  induction sems generalizing k with
  | nil => cases h
  | cons s sems ih =>
      rcases List.mem_append.1 h with h | h
      · exact (mem_wakeCalls.1 h).2
      · exact (ih h).trans (k.vBody_level s)

theorem mem_handleCalls {cl : Client ρ δ α} {k : Kernel ρ δ} {a : α} {lv : IntStatus}
    (h : lv ∈ handleCalls cl k a) : lv = k.level := by
  unfold handleCalls at h
  split at h
  · cases h
  · exact (mem_handlerCalls h).trans rfl

/-- The calls of `Signal` and `Broadcast` are made at the level of the caller, all others with
interrupts off. -/
theorem mem_execCalls {k : Kernel ρ δ} {o : Call ρ} {lv : IntStatus} (h : lv ∈ k.execCalls o) :
    lv = .intOff ∨ lv = k.level ∧ ∃ c l, (o = .signal c l ∨ o = .broadcast c l) ∧
      k.threadHeld l = some k.currentThread ∧ k.queue (.condition c) ≠ [] := by
  cases o with
  | V s => exact .inl (mem_wakeCalls.1 h).2
  | release l =>
      simp only [execCalls] at h
      split at h
      · exact .inl (mem_wakeCalls.1 h).2
      · cases h
  | signal c l =>
      simp only [execCalls] at h
      split at h
      · obtain ⟨hq, rfl⟩ := mem_wakeCalls.1 h
        exact .inr ⟨rfl, c, l, .inl rfl, ‹_›, hq⟩
      · cases h
  | broadcast c l =>
      simp only [execCalls] at h
      split at h
      · refine .inr ⟨mem_broadcastCalls h, c, l, .inr rfl, ‹_›, ?_⟩
        intro hq
        rw [hq] at h
        cases h
      · cases h
  | yield =>
      rcases List.mem_cons.1 h with rfl | h
      · exact .inl rfl
      · exact .inl (mem_wakeCalls.1 h).2
  | fork t join start =>
      simp only [execCalls] at h
      split at h
      · exact .inl (by simpa using h)
      · cases h
  | _ => cases h

/-- A `Signal` or `Broadcast` that finds a waiter calls `ReadyToRun` at the level of the
caller. -/
theorem level_mem_execCalls {k : Kernel ρ δ} {o : Call ρ} {c l : Obj}
    (ho : o = .signal c l ∨ o = .broadcast c l) (hheld : k.threadHeld l = some k.currentThread)
    (hq : k.queue (.condition c) ≠ []) : k.level ∈ k.execCalls o := by
  have hwake : k.level ∈ k.wakeCalls (.condition c) := mem_wakeCalls.2 ⟨hq, rfl⟩
  rcases ho with rfl | rfl
  · simp [execCalls, hheld, hwake]
  · obtain ⟨n, hn⟩ : ∃ n, (k.queue (.condition c)).length = n + 1 :=
      Nat.exists_eq_succ_of_ne_zero (by simpa using hq)
    simp [execCalls, hheld, hn, broadcastCalls, hwake]

theorem Issues.schedulerCalls_eq {cl : Client ρ δ α} {k k₀ : Kernel ρ δ} {lab : Label α}
    {o : Call ρ}
    (h : Issues cl k lab o k₀) : schedulerCalls cl k lab = k₀.execCalls o := by
  cases h with
  | own a o pc data hs hnext ho => simp [schedulerCalls, hs, hnext, ho]
  | inner o rest hs => simp [schedulerCalls, hs]

/-- What a call finds is what the state before the step holds. -/
theorem Issues.state {cl : Client ρ δ α} {k k₀ : Kernel ρ δ} {lab : Label α} {o : Call ρ}
    (h : Issues cl k lab o k₀) : k₀.level = k.level ∧ k₀.queue = k.queue ∧
      k₀.threadHeld = k.threadHeld ∧ k₀.currentThread = k.currentThread := by
  cases h <;> exact ⟨rfl, rfl, rfl, rfl⟩

/-- In every step the scheduler is called with interrupts off, unless `Signal` or `Broadcast`
finds a waiter while interrupts are on. -/
theorem Leveled.schedulerCalls_off_iff {cl : Client ρ δ α} {k : Kernel ρ δ} {lab : Label α}
    (h : k.Leveled) :
    (∀ lv ∈ schedulerCalls cl k lab, lv = .intOff) ↔ ¬ WakesEnabled cl k lab := by
  constructor
  · rintro hoff ⟨c, l, ho, hheld, hq, hon⟩
    obtain ⟨o, hcall, ho⟩ : ∃ o, callOf cl k lab = some o ∧
      (o = .signal c l ∨ o = .broadcast c l) := by
      rcases ho with ho | ho
      · exact ⟨_, ho, .inl rfl⟩
      · exact ⟨_, ho, .inr rfl⟩
    obtain ⟨k₀, hi⟩ := callOf_eq_some.1 hcall
    obtain ⟨hlv, hqs, hth, hct⟩ := hi.state
    have hmem : k₀.level ∈ k₀.execCalls o :=
      level_mem_execCalls ho (by rw [hth, hct]; exact hheld) (by rw [hqs]; exact hq)
    rw [← hi.schedulerCalls_eq] at hmem
    have := hoff _ hmem
    rw [hlv, hon] at this
    cases this
  · intro hno lv hmem
    by_cases hcall : ∃ o, callOf cl k lab = some o
    · obtain ⟨o, hcall⟩ := hcall
      obtain ⟨k₀, hi⟩ := callOf_eq_some.1 hcall
      obtain ⟨hlv, hqs, hth, hct⟩ := hi.state
      rw [hi.schedulerCalls_eq] at hmem
      rcases mem_execCalls hmem with hoff | ⟨rfl, c, l, ho, hheld, hq⟩
      · exact hoff
      · rw [hlv]
        cases hk : k.level with
        | intOff => rfl
        | intOn =>
            refine absurd ⟨c, l, ?_, by rw [← hth, ← hct]; exact hheld, hqs ▸ hq, hk⟩ hno
            rcases ho with rfl | rfl
            · exact .inl hcall
            · exact .inr hcall
    · have hcur := h.current
      unfold schedulerCalls at hmem
      split at hmem
      · split at hmem
        · split at hmem
          · exact absurd ⟨_, callOf_eq_some.2 ⟨_, .own _ _ _ _ ‹_› ‹_› ‹_›⟩⟩ hcall
          · cases hmem
        · cases hmem
      · exact absurd ⟨_, callOf_eq_some.2 ⟨_, .inner _ _ ‹_›⟩⟩ hcall
      · rename_i hs
        rw [hs] at hcur
        exact (mem_handleCalls hmem).trans (hcur.off rfl)
      · rename_i hs
        rw [hs] at hcur
        rw [List.mem_singleton.1 hmem]
        exact hcur.off rfl
      · rename_i hs
        rw [hs] at hcur
        rcases List.mem_cons.1 hmem with rfl | hmem
        · exact hcur.off rfl
        · exact (mem_handleCalls hmem).trans (hcur.off rfl)
      · cases hmem

theorem readyList_wakeOne {k : Kernel ρ δ} {q : QueueId} (h : k.wakeCalls q = []) :
    (k.wakeOne q).queue = k.queue := by
  unfold wakeCalls at h
  split at h
  · rename_i hq
    simp [wakeOne, remove, hq]
  · cases h

theorem readyList_handlerCalls {k : Kernel ρ δ} {sems : List ℕ} (h : handlerCalls sems k = []) :
    (sems.foldl vBody k).queue = k.queue := by
  induction sems generalizing k with
  | nil => rfl
  | cons s sems ih =>
      rw [handlerCalls, List.append_eq_nil_iff] at h
      rw [List.foldl_cons, ih h.2]
      exact readyList_wakeOne h.1

theorem readyList_handleCalls {cl : Client ρ δ α} {k k' : Kernel ρ δ} {a : α}
    (hk' : handle cl k a = .ok k') (h : handleCalls cl k a = []) : k'.queue = k.queue := by
  obtain ⟨sems, data, heq, rfl⟩ := handle_eq hk'
  simp only [handleCalls, heq] at h
  exact readyList_handlerCalls h

theorem readyList_broadcastCalls {k : Kernel ρ δ} {c : Obj} {n : ℕ}
    (h : broadcastCalls c n k = []) : (broadcastLoop c n k).queue = k.queue := by
  induction n generalizing k with
  | zero => rfl
  | succ n ih =>
      rw [broadcastCalls, List.append_eq_nil_iff] at h
      have hq : k.queue (.condition c) = [] := by
        by_contra hne
        have := mem_wakeCalls.2 ⟨hne, rfl⟩
        rw [h.1] at this
        cases this
      rw [broadcastLoop, ih h.2]
      simp [signalOne, remove, hq]

theorem readyList_pLoop {k k' : Kernel ρ δ} {s : ℕ} (h : k.pLoop s = .ok k') :
    k'.queue .readyList = k.queue .readyList := by
  unfold pLoop at h
  split at h
  · simp only [sleep, assertThen_ok, Except.ok.injEq] at h
    obtain ⟨-, rfl⟩ := h
    simp
  · cases h
    rfl

theorem readyList_acquireLoop {k k' : Kernel ρ δ} {l : Obj} (h : k.acquireLoop l = .ok k') :
    k'.queue .readyList = k.queue .readyList := by
  unfold acquireLoop at h
  split at h
  · simp only [sleep, assertThen_ok, Except.ok.injEq] at h
    obtain ⟨-, rfl⟩ := h
    simp
  · cases h
    rfl

theorem readyList_execCalls {k k' : Kernel ρ δ} {o : Call ρ} (hk' : k.exec o = .ok k')
    (h : k.execCalls o = []) : k'.queue .readyList = k.queue .readyList := by
  cases o with
  | P s => exact (readyList_pLoop hk').trans rfl
  | V s =>
      cases hk'
      exact congrFun (readyList_wakeOne (k := k.disable.push (.setLevel k.level)) h) .readyList
  | acquire l =>
      simp only [exec, acquire, assertThen_ok] at hk'
      exact (readyList_acquireLoop hk'.2).trans rfl
  | release l =>
      simp only [exec, release, assertThen_ok, Except.ok.injEq] at hk'
      obtain ⟨ha, rfl⟩ := hk'
      simp only [execCalls, if_pos ha] at h
      exact congrFun (readyList_wakeOne (k := (k.disable.push (.setLevel k.level)).note
        (.releaseCalled l k.currentThread)) h) .readyList
  | wait c l =>
      simp only [exec, wait, assertThen_ok, Except.ok.injEq] at hk'
      obtain ⟨-, rfl⟩ := hk'
      rfl
  | signal c l =>
      simp only [exec, signal, assertThen_ok, Except.ok.injEq] at hk'
      obtain ⟨ha, rfl⟩ := hk'
      have hb : broadcastCalls c 1 k = [] := by
        simpa [execCalls, broadcastCalls, ha] using h
      exact congrFun (readyList_broadcastCalls hb) .readyList
  | broadcast c l =>
      simp only [exec, broadcast, assertThen_ok, Except.ok.injEq] at hk'
      obtain ⟨ha, rfl⟩ := hk'
      simp only [execCalls, if_pos ha] at h
      exact congrFun (readyList_broadcastCalls h) .readyList
  | yield => cases h
  | fork t join start =>
      simp only [exec, fork] at hk'
      split at hk'
      · simp [execCalls, ‹t = k.numThreads›] at h
      · cases hk'
  | join t =>
      simp only [exec, joinCall, assertThen_ok, Except.ok.injEq] at hk'
      obtain ⟨-, rfl⟩ := hk'
      rfl
  | _ =>
      cases hk'
      rfl

/-- The ready list is touched by the calls of the scheduler only. -/
theorem readyList_of_schedulerCalls {cl : Client ρ δ α} {k k' : Kernel ρ δ} {lab : Label α}
    (hk' : step cl k lab = .ok k') (h : schedulerCalls cl k lab = []) :
    k'.queue .readyList = k.queue .readyList := by
  rcases step_cases hk' with ⟨o, k₀, hi, he⟩ | ⟨f, rest, hs, hcall, hr⟩
  · rw [hi.schedulerCalls_eq] at h
    rw [readyList_execCalls he h, hi.state.2.1]
  · rcases resume_cases hr with rfl | ⟨rfl, rfl, rfl⟩ | ⟨a, rfl, rfl | rfl, -⟩
    · cases f with
      | call o => exact absurd rfl (hcall o)
      | setLevel now =>
          cases hr
          unfold Kernel.setLevel
          split <;> rfl
      | sleepLoop => simp [schedulerCalls, hs] at h
      | afterSwitch =>
          rcases afterSwitch_cases hr with ⟨-, rfl⟩ | ⟨t, -, rfl⟩
          · rfl
          · rfl
      | pRetest s => exact (readyList_pLoop hr).trans rfl
      | acquireRetest l => exact (readyList_acquireLoop hr).trans rfl
      | waitEnqueue c l old =>
          simp only [resume, waitEnqueue, sleep, assertThen_ok, Except.ok.injEq] at hr
          obtain ⟨-, rfl⟩ := hr
          simp
      | waitReturn c l =>
          simp only [resume, assertThen_ok, Except.ok.injEq] at hr
          obtain ⟨-, rfl⟩ := hr
          rfl
      | finishLoop =>
          cases hr
          unfold finishLoop
          split
          · rfl
          · split <;> rfl
      | finishDone =>
          simp only [resume, finishDone, sleep, assertThen_ok, Except.ok.injEq] at hr
          obtain ⟨-, rfl⟩ := hr
          rfl
      | finished => cases hr
      | _ =>
          cases hr
          rfl
    · rfl
    · simp only [schedulerCalls, hs] at h
      rw [readyList_handleCalls (resume_interrupt hs hr) h]
    · simp [schedulerCalls, hs] at h

/-- In a run, the scheduler is called with interrupts off in every step exactly when no
`Signal` and no `Broadcast` finds a waiter while interrupts are on. -/
theorem schedulerCalls_off_iff_meets (cl : Client ρ δ α) (start : ρ) (data : δ)
    (initialValue : ℕ → ℤ) (as : List (Label α)) :
    Meets (step cl) (fun k lab => ∀ lv ∈ schedulerCalls cl k lab, lv = .intOff)
        (init start data initialValue) as ↔
      Meets (step cl) (fun k lab => ¬ WakesEnabled cl k lab) (init start data initialValue) as := by
  refine Meets.congr (P := fun _ _ => True) (I := Runs cl start data initialValue)
    ?_ ?_ (.refl _ _) (.of_forall fun _ _ _ => trivial)
  · exact fun k lab k' hk _ hs => hk.tail hs
  · exact fun k lab hk _ => hk.leveled.schedulerCalls_off_iff

/-- The thread 1 waits for a signal of the main thread. -/
def waitThenSignal : Tid → ℕ → Option (Call ℕ)
  | 0, 0 => some (.fork 1 0 0)
  | 0, 1 => some .yield
  | 0, 2 => some (.acquire (.user 0))
  | 0, 3 => some (.signal (.user 0) (.user 0))
  | 1, 0 => some (.acquire (.user 0))
  | 1, 1 => some (.wait (.user 0) (.user 0))
  | _, _ => none

/-- The signal puts the thread on the ready list while interrupts are on. -/
theorem signal_calls_enabled :
    ∃ k, Runs (scripted waitThenSignal) 0 () (fun _ => 0) k ∧
      schedulerCalls (scripted waitThenSignal) k (.act ()) = [.intOn] := by
  have hpass : passes (step (scripted waitThenSignal)) (init 0 () fun _ => 0)
      [.act (), .go, .go, .go, .act (), .go, .go, .go, .act (), .go, .go, .go, .go,
        .act (), .go, .go,
        .go, .go, .go, .go, .go, .go, .act (), .go, .go, .go, .go]
      (fun k => schedulerCalls (scripted waitThenSignal) k (.act ()) = [.intOn]) = true := by
    decide +kernel
  obtain ⟨k, hk, hcalls⟩ := exists_of_passes _ hpass
  exact ⟨k, hk, of_decide_eq_true hcalls⟩

end Kernel

end Nachos
