import Nachos.Threads.SchedulerCalls

/-!
# Priorities

The ready list is sorted by the negated priorities of its threads, so its front has the highest
priority, as long as no thread gets a new priority while it stands on a queue and no
priority is `INT_MIN`, whose negation overflows. `Sleep` runs the front of the list. `Yield`
takes the front off the list before it puts the yielding thread on it, so it runs a thread of
lower priority when the yielding thread has the highest one.
-/

namespace Nachos

open Lib



theorem negPriority_eq {p : ℤ} (h : intMin < p) (h' : p < intMax) : negPriority p = -p := by
  unfold intMin at h
  unfold intMax at h'
  rw [negPriority, Int.bmod_def]
  omega

namespace Kernel

variable {ρ δ α : Type}

/-- A new priority lies strictly between `INT_MIN` and `INT_MAX`, and its thread is on no
queue. -/
def Steady (cl : Client ρ δ α) (k : Kernel ρ δ) (lab : Label α) : Prop :=
  ∀ t p, callOf cl k lab = some (.setPriority t p) →
    intMin < p ∧ p < intMax ∧ ∀ q, t ∉ (k.queue q).map Keyed.item

/-- The ready list is sorted, and its keys are the negated priorities. -/
structure Ranked (k : Kernel ρ δ) : Prop where
  bounded : ∀ t, intMin < k.priority t ∧ k.priority t < intMax
  key : ∀ e ∈ k.queue .readyList, e.key = -k.priority e.item
  sorted : SortedKeys (k.queue .readyList)

theorem Ranked.congr {k k' : Kernel ρ δ} (h : k.Ranked)
    (hq : k'.queue .readyList = k.queue .readyList)
    (hp : k'.priority = k.priority) : k'.Ranked := by
  refine ⟨?_, ?_, ?_⟩
  · rw [hp]
    exact h.bounded
  · rw [hq, hp]
    exact h.key
  · rw [hq]
    exact h.sorted

theorem Ranked.readyToRun {k : Kernel ρ δ} (h : k.Ranked) (t : Tid) : (k.readyToRun t).Ranked := by
  refine ⟨h.bounded, ?_, ?_⟩
  · intro e he
    rw [readyToRun_queue, Function.update_self, mem_sortedInsert] at he
    rcases he with rfl | he
    · exact negPriority_eq (h.bounded t).1 (h.bounded t).2
    · exact h.key e he
  · rw [readyToRun_queue, Function.update_self]
    exact h.sorted.insert _

theorem Ranked.tail {k : Kernel ρ δ} (h : k.Ranked) {e : Keyed Tid} {es : List (Keyed Tid)}
    (hq : k.queue .readyList = e :: es) : (k.setQueue .readyList es).Ranked := by
  have hsorted := h.sorted
  rw [hq] at hsorted
  refine ⟨h.bounded, ?_, ?_⟩
  · intro d hd
    rw [setQueue_queue, Function.update_self] at hd
    exact h.key d (hq ▸ List.mem_cons_of_mem e hd)
  · rw [setQueue_queue, Function.update_self]
    exact (List.pairwise_cons.1 hsorted).2

/-- The front of the ready list has the highest priority. -/
theorem Ranked.front {k : Kernel ρ δ} (h : k.Ranked) {e : Keyed Tid} {es : List (Keyed Tid)}
    (hq : k.queue .readyList = e :: es) {t : Tid}
    (ht : t ∈ (k.queue .readyList).map Keyed.item) : k.priority t ≤ k.priority e.item := by
  obtain ⟨d, hd, rfl⟩ := List.mem_map.1 ht
  have hsorted := h.sorted
  rw [hq] at hsorted
  have hkey : e.key ≤ d.key := by
    rw [hq] at hd
    rcases List.mem_cons.1 hd with rfl | hd
    · exact le_rfl
    · exact (List.pairwise_cons.1 hsorted).1 d hd
  rw [h.key d hd, h.key e (by simp [hq])] at hkey
  omega

theorem Ranked.wakeOne {k : Kernel ρ δ} (h : k.Ranked) {q : QueueId} (hne : q ≠ .readyList) :
    (k.wakeOne q).Ranked := by
  unfold Kernel.wakeOne remove
  cases k.queue q with
  | nil => exact h
  | cons e es =>
      have h₀ : (k.setQueue q es).Ranked := h.congr (by simp [hne.symm]) rfl
      exact h₀.readyToRun e.item

theorem Ranked.vBody {k : Kernel ρ δ} (h : k.Ranked) (s : ℕ) : (k.vBody s).Ranked :=
  (h.wakeOne (q := .semaphore s) (by simp)).congr rfl rfl

theorem Ranked.foldl_vBody {k : Kernel ρ δ} (h : k.Ranked) (sems : List ℕ) :
    (sems.foldl Kernel.vBody k).Ranked := by
  induction sems generalizing k with
  | nil => exact h
  | cons s sems ih => exact ih (h.vBody s)

theorem Ranked.signalOne {k : Kernel ρ δ} (h : k.Ranked) (c : Obj) : (k.signalOne c).Ranked := by
  unfold Kernel.signalOne remove
  cases k.queue (.condition c) with
  | nil => exact h
  | cons e es =>
      have h₀ : (k.setQueue (.condition c) es).Ranked := h.congr (by simp) rfl
      exact (h₀.readyToRun e.item).congr rfl rfl

theorem Ranked.broadcastLoop {k : Kernel ρ δ} (h : k.Ranked) (c : Obj) (n : ℕ) :
    (Kernel.broadcastLoop c n k).Ranked := by
  induction n generalizing k with
  | zero => exact h
  | succ n ih => exact ih (h.signalOne c)

theorem Ranked.yield {k : Kernel ρ δ} (h : k.Ranked) : k.yield.Ranked := by
  unfold Kernel.yield findNextToRun remove
  cases hq : k.disable.queue .readyList with
  | nil => exact h.congr rfl rfl
  | cons e es =>
      have h₀ : ((k.disable.setQueue .readyList es).push (.setLevel k.level)).Ranked :=
        (h.tail hq).congr rfl rfl
      exact (h₀.readyToRun k.currentThread).congr rfl rfl

theorem Ranked.sleep {k k' : Kernel ρ δ} (h : k.Ranked) (hk' : k.sleep = .ok k') : k'.Ranked := by
  simp only [Kernel.sleep, assertThen_ok, Except.ok.injEq] at hk'
  obtain ⟨-, rfl⟩ := hk'
  exact h.congr rfl rfl

theorem Ranked.pLoop {k k' : Kernel ρ δ} {s : ℕ} (h : k.Ranked) (hk' : k.pLoop s = .ok k') :
    k'.Ranked := by
  unfold Kernel.pLoop at hk'
  split at hk'
  · have h₀ : ((k.insert (.semaphore s) k.currentThread).push (.pRetest s)).Ranked :=
      h.congr (by simp) rfl
    exact h₀.sleep hk'
  · cases hk'
    exact h.congr rfl rfl

theorem Ranked.acquireLoop {k k' : Kernel ρ δ} {l : Obj} (h : k.Ranked)
    (hk' : k.acquireLoop l = .ok k') : k'.Ranked := by
  unfold Kernel.acquireLoop at hk'
  split at hk'
  · have h₀ : ((k.insert (.lock l) k.currentThread).push (.acquireRetest l)).Ranked :=
      h.congr (by simp) rfl
    exact h₀.sleep hk'
  · cases hk'
    exact h.congr rfl rfl

/-- Every call keeps the order; a new priority is given to a thread that is on no queue. -/
theorem Ranked.exec {k k' : Kernel ρ δ} {o : Call ρ} (h : k.Ranked)
    (hset : ∀ t p, o = .setPriority t p →
      intMin < p ∧ p < intMax ∧ t ∉ (k.queue .readyList).map Keyed.item)
    (hk' : k.exec o = .ok k') : k'.Ranked := by
  cases o with
  | P s =>
      have h₀ : (k.disable.push (.setLevel k.level)).Ranked := h.congr rfl rfl
      exact h₀.pLoop hk'
  | V s =>
      cases hk'
      have h₀ : (k.disable.push (.setLevel k.level)).Ranked := h.congr rfl rfl
      exact h₀.vBody s
  | acquire l =>
      simp only [Kernel.exec, acquire, assertThen_ok] at hk'
      have h₀ : ((k.disable.push (.acquireReturn l)).push (.setLevel k.level)).Ranked :=
        h.congr rfl rfl
      exact h₀.acquireLoop hk'.2
  | release l =>
      simp only [Kernel.exec, release, assertThen_ok, Except.ok.injEq] at hk'
      obtain ⟨-, rfl⟩ := hk'
      have h₀ : ((k.disable.push (.setLevel k.level)).note
          (.releaseCalled l k.currentThread)).Ranked := h.congr rfl rfl
      exact (h₀.wakeOne (q := .lock l) (by simp)).congr rfl rfl
  | wait c l =>
      simp only [Kernel.exec, wait, assertThen_ok, Except.ok.injEq] at hk'
      obtain ⟨-, rfl⟩ := hk'
      exact h.congr rfl rfl
  | signal c l =>
      simp only [Kernel.exec, signal, assertThen_ok, Except.ok.injEq] at hk'
      obtain ⟨-, rfl⟩ := hk'
      exact h.signalOne c
  | broadcast c l =>
      simp only [Kernel.exec, broadcast, assertThen_ok, Except.ok.injEq] at hk'
      obtain ⟨-, rfl⟩ := hk'
      exact h.broadcastLoop c _
  | yield =>
      cases hk'
      exact h.yield
  | fork t join start =>
      simp only [Kernel.exec, fork] at hk'
      split at hk'
      · cases hk'
        refine Ranked.readyToRun ?_ t
        exact h.congr rfl rfl
      · cases hk'
  | join t =>
      simp only [Kernel.exec, joinCall, assertThen_ok, Except.ok.injEq] at hk'
      obtain ⟨-, rfl⟩ := hk'
      exact h.congr rfl rfl
  | setPriority t p =>
      cases hk'
      obtain ⟨hmin, hmax, hnot⟩ := hset t p rfl
      refine ⟨?_, ?_, h.sorted⟩
      · intro u
        by_cases hu : u = t
        · simp [hu, hmin, hmax]
        · simpa [hu] using h.bounded u
      · intro e he
        have hne : e.item ≠ t := by
          rintro rfl
          exact hnot (List.mem_map_of_mem he)
        simpa [hne] using h.key e he
  | _ =>
      cases hk'
      exact h.congr rfl rfl

theorem Ranked.handle {cl : Client ρ δ α} {k k' : Kernel ρ δ} {a : α} (h : k.Ranked)
    (hk' : handle cl k a = .ok k') : k'.Ranked := by
  obtain ⟨sems, data, -, rfl⟩ := handle_eq hk'
  have h₀ : Ranked { k with data := data } := h.congr rfl rfl
  exact h₀.foldl_vBody sems

theorem Ranked.resume {cl : Client ρ δ α} {k k' : Kernel ρ δ} {f : Frame ρ} {lab : Label α}
    (h : k.Ranked) (hcall : ∀ o, f ≠ .call o) (hlab : ∀ a, lab ≠ .interrupt a)
    (hk' : resume cl k f lab = .ok k') : k'.Ranked := by
  rcases resume_cases hk' with rfl | ⟨rfl, rfl, rfl⟩ | ⟨a, rfl, -⟩
  · cases f with
    | call o => exact absurd rfl (hcall o)
    | setLevel now =>
        cases hk'
        unfold Kernel.setLevel
        split <;> exact h.congr rfl rfl
    | sleepLoop =>
        obtain ⟨e, es, hq, rfl⟩ := sleepLoop_go hk'
        exact (h.tail hq).congr rfl rfl
    | afterSwitch =>
        rcases afterSwitch_cases hk' with ⟨-, rfl⟩ | ⟨t, -, rfl⟩
        · exact h
        · exact h.congr rfl rfl
    | pRetest s => exact h.pLoop hk'
    | acquireRetest l => exact h.acquireLoop hk'
    | waitEnqueue c l old =>
        have h₀ : (((k.insert (.condition c) k.currentThread).note
            (.waitQueued c k.currentThread)).push (.waitWoken c l old)).Ranked :=
          h.congr (by simp) rfl
        exact h₀.sleep hk'
    | waitReturn c l =>
        simp only [Kernel.resume, assertThen_ok, Except.ok.injEq] at hk'
        obtain ⟨-, rfl⟩ := hk'
        exact h.congr rfl rfl
    | finishLoop =>
        cases hk'
        unfold finishLoop
        split
        · exact h.congr rfl rfl
        · split <;> exact h.congr rfl rfl
    | finishDone =>
        have h₀ : (({ k with threadToBeDestroyed := some k.currentThread }.note
            (.finishCompleted k.currentThread)).push .finished).Ranked := h.congr rfl rfl
        exact h₀.sleep hk'
    | finished => cases hk'
    | _ =>
        cases hk'
        exact h.congr rfl rfl
  · exact h.congr rfl rfl
  · exact absurd rfl (hlab a)

theorem Ranked.step {cl : Client ρ δ α} {k k' : Kernel ρ δ} {lab : Label α} (h : k.Ranked)
    (hsteady : Steady cl k lab) (hk' : Kernel.step cl k lab = .ok k') : k'.Ranked := by
  rcases step_cases hk' with ⟨o, k₀, hi, he⟩ | ⟨f, rest, hs, hcall, hr⟩
  · obtain ⟨-, hq, -⟩ := hi.state
    have h₀ : k₀.Ranked := by cases hi <;> exact h.congr rfl rfl
    refine h₀.exec ?_ he
    rintro t p rfl
    obtain ⟨hmin, hmax, hnot⟩ := hsteady t p (callOf_eq_some.2 ⟨k₀, hi⟩)
    exact ⟨hmin, hmax, hq ▸ hnot .readyList⟩
  · by_cases hlab : ∃ a, lab = .interrupt a
    · obtain ⟨a, rfl⟩ := hlab
      exact h.handle (resume_interrupt hs hr)
    · have h₀ : (k.setStack rest).Ranked := h.congr rfl rfl
      exact h₀.resume hcall (fun a ha => hlab ⟨a, ha⟩) hr

/-! ## Scheduling decisions -/

/-- `Thread::Yield` is called. -/
def Yields (cl : Client ρ δ α) (k : Kernel ρ δ) (lab : Label α) : Prop :=
  callOf cl k lab = some .yield

/-- The threads that can run when the decision is made. -/
def CanRun (cl : Client ρ δ α) (k : Kernel ρ δ) (lab : Label α) (t : Tid) : Prop :=
  k.status t = .ready ∨ Yields cl k lab ∧ t = k.currentThread

/-- If the step is a scheduling decision, the thread that runs next has a priority at least as
high as every thread that can run. -/
def RunsHighest (cl : Client ρ δ α) (k : Kernel ρ δ) (lab : Label α) : Prop :=
  Yields cl k lab ∨ k.InSleep ∧ lab = .go → ∀ k', step cl k lab = .ok k' →
    ∀ t, CanRun cl k lab t → k.priority t ≤ k.priority k'.currentThread

/-- A yielding thread has no higher priority than the front of the ready list. -/
def YieldsUp (cl : Client ρ δ α) (k : Kernel ρ δ) (lab : Label α) : Prop :=
  Yields cl k lab → ∀ e ∈ (k.queue .readyList).head?, k.priority k.currentThread ≤ k.priority e.item

theorem Placed.mem_readyList {k : Kernel ρ δ} (h : k.Placed) {t : Tid} (ht : k.status t = .ready) :
    t ∈ (k.queue .readyList).map Keyed.item := by
  rw [mem_queue_iff h, seat, ht]

theorem yield_currentThread (k : Kernel ρ δ) :
    k.yield.currentThread = match (k.queue .readyList).head? with
      | none => k.currentThread
      | some e => e.item := by
  unfold yield findNextToRun remove
  simp only [disable_queue]
  cases k.queue .readyList <;> rfl

theorem Ranked.runsHighest_iff {cl : Client ρ δ α} {k : Kernel ρ δ} {lab : Label α} (h : k.Ranked)
    (hp : k.Placed) : RunsHighest cl k lab ↔ YieldsUp cl k lab := by
  constructor
  · intro hrun hy e he
    obtain ⟨k₀, hi⟩ := callOf_eq_some.1 hy
    have hcur := hrun (.inl hy) k₀.yield hi.step_eq k.currentThread (.inr ⟨hy, rfl⟩)
    rw [yield_currentThread, hi.state.2.1, Option.mem_def.1 he] at hcur
    exact hcur
  · rintro hup (hy | ⟨⟨rest, hs⟩, rfl⟩) k' hk' t ht
    · obtain ⟨k₀, hi⟩ := callOf_eq_some.1 hy
      rw [hi.step_eq] at hk'
      cases hk'
      rw [yield_currentThread, hi.state.2.1, hi.state.2.2.2]
      cases hq : k.queue .readyList with
      | nil =>
          rcases ht with ht | ⟨-, rfl⟩
          · have := hp.mem_readyList ht
            simp [hq] at this
          · exact le_rfl
      | cons e es =>
          rcases ht with ht | ⟨-, rfl⟩
          · exact h.front hq (hp.mem_readyList ht)
          · exact hup hy e (by simp [hq])
    · have hnot : ¬ Yields cl k .go := by simp [Yields, callOf, hs]
      have hready : k.status t = .ready := by
        rcases ht with ht | ⟨hy, -⟩
        · exact ht
        · exact absurd hy hnot
      simp only [Kernel.step, hs, Kernel.resume, findNextToRun, remove, setStack_queue] at hk'
      split at hk'
      · cases hk'
      · rename_i heq
        cases hk'
        split at heq
        · cases heq
        · rename_i e es hq
          cases heq
          exact h.front hq (hp.mem_readyList hready)

theorem Ranked.init (start : ρ) (data : δ) (initialValue : ℕ → ℤ) :
    (Kernel.init start data initialValue).Ranked := by
  refine ⟨?_, ?_, .nil⟩
  · intro t
    change intMin < 0 ∧ 0 < intMax
    decide
  · intro e he
    cases he

/-- In a run with steady priorities, every scheduling decision runs a thread of the highest
priority exactly when no thread yields while its own priority is above that of the front of the
ready list. -/
theorem runs_highest_iff (cl : Client ρ δ α) (start : ρ) (data : δ) (initialValue : ℕ → ℤ)
    (as : List (Label α)) (h : Meets (step cl) (Steady cl) (init start data initialValue) as) :
    Meets (step cl) (RunsHighest cl) (init start data initialValue) as ↔
      Meets (step cl) (YieldsUp cl) (init start data initialValue) as := by
  refine Meets.congr (P := Steady cl)
    (I := fun k => Runs cl start data initialValue k ∧ k.Ranked) ?_ ?_ ?_ h
  · rintro k lab k' ⟨hk, hr⟩ hsteady hs
    exact ⟨hk.tail hs, hr.step hsteady hs⟩
  · rintro k lab ⟨hk, hr⟩ -
    exact hr.runsHighest_iff hk.placed
  · exact ⟨.refl _ _, .init start data initialValue⟩

/-- The main thread takes the priority `p`, forks the thread 1 and yields. -/
def yieldAbove (p : ℤ) : Tid → ℕ → Option (Call ℕ)
  | 0, 0 => some (.setPriority 0 p)
  | 0, 1 => some (.fork 1 0 0)
  | 0, 2 => some .yield
  | _, _ => none

/-- The steps of the main thread up to and including its `Yield`. -/
def upToYield : List (Label Unit) := [.act (), .act (), .go, .go, .go, .act ()]

theorem steady_yieldAbove {p : ℤ} (hmin : intMin < p) (hmax : p < intMax) :
    Meets (step (scripted (yieldAbove p))) (Steady (scripted (yieldAbove p)))
      (init 0 () fun _ => 0) upToYield := by
  refine .cons ?_ rfl (.cons ?_ rfl (.cons ?_ rfl
    (.cons ?_ rfl (.cons ?_ rfl (.cons ?_ rfl trivial)))))
  · intro t q h
    cases h
    exact ⟨hmin, hmax, fun _ => List.not_mem_nil⟩
  all_goals
    intro t q h
    cases h

/-- A main thread with the priority -1 yields to a thread with the priority 0. -/
theorem runs_highest_below :
    Meets (step (scripted (yieldAbove (-1)))) (RunsHighest (scripted (yieldAbove (-1))))
      (init 0 () fun _ => 0) upToYield := by
  refine (runs_highest_iff (scripted (yieldAbove (-1))) 0 () (fun _ => 0) upToYield
    (steady_yieldAbove (by decide) (by decide))).2 ?_
  have hother : ∀ {k lab}, (callOf (scripted (yieldAbove (-1))) k lab).isSome = false →
      YieldsUp (scripted (yieldAbove (-1))) k lab := by
    intro k lab h hy
    rw [Yields] at hy
    simp [hy] at h
  refine .cons ?_ rfl (.cons ?_ rfl (.cons (hother rfl) rfl (.cons (hother rfl) rfl
    (.cons (hother rfl) rfl (.cons ?_ rfl trivial)))))
  · intro h
    cases h
  · intro h
    cases h
  · intro _ e he
    cases he
    decide

/-- A main thread with the priority 10 yields, and the thread with the priority 0 runs. -/
theorem yield_runs_lower :
    Meets (step (scripted (yieldAbove 10))) (Steady (scripted (yieldAbove 10)))
        (init 0 () fun _ => 0) upToYield ∧
      ¬ Meets (step (scripted (yieldAbove 10))) (RunsHighest (scripted (yieldAbove 10)))
        (init 0 () fun _ => 0) upToYield := by
  refine ⟨steady_yieldAbove (by decide) (by decide), ?_⟩
  intro h
  have hyield := ((((h.2 _ rfl).2 _ rfl).2 _ rfl).2 _ rfl).2 _ rfl
  have hle := hyield.1 (.inl rfl) _ rfl 0 (.inr ⟨rfl, rfl⟩)
  exact absurd hle (by decide)

end Kernel

end Nachos
