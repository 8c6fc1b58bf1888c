import Nachos.Threads.Objects

/-!
# Locks

`Lock::Release` frees the lock before the thread it has woken runs, so the lock
can be taken in between and the woken thread goes back to sleep. The invariant
`Lock.Sound` says who holds the lock, in terms of what threads have called and
what has returned to them, and that a free lock with waiters has a thread on its way to it.
-/

namespace Nachos

open Lib



/-- In the history, newest event first, the thread `t` is between the return of
`Acquire` and its call of `Release`. -/
def Between (l : Obj) (t : Tid) : List Event → Prop
  | [] => False
  | e :: es => e = .acquireReturned l t ∨ e ≠ .releaseCalled l t ∧ Between l t es

theorem between_eventsOf (l : Obj) (t : Tid) (es : List Event) :
    Between l t (eventsOf (.lock l) es) ↔ Between l t es := by
  induction es with
  | nil => rfl
  | cons e es ih =>
      by_cases he : e.about = some (.lock l)
      · rw [eventsOf_cons_own he, Between, Between, ih]
      · rw [eventsOf_cons_other he, Between, ih]
        have h₁ : e ≠ .acquireReturned l t := by
          rintro rfl
          exact he rfl
        have h₂ : e ≠ .releaseCalled l t := by
          rintro rfl
          exact he rfl
        simp [h₁, h₂]

namespace Kernel

variable {ρ δ α : Type}

/-- The thread has got the lock and has not returned from `Acquire` yet. -/
def Chosen (k : Kernel ρ δ) (l : Obj) (t : Tid) : Prop :=
  .acquireReturn l ∈ k.stack t ∧ .acquireRetest l ∉ k.stack t

namespace Lock

/-- What is true of the lock `l` in every state. -/
structure Sound (l : Obj) (k : Kernel ρ δ) : Prop where
  holder : ∀ t, k.threadHeld l = some t ↔ Between l t k.log ∨ k.Chosen l t
  locked : k.locked l = (k.threadHeld l).isSome
  inside : ∀ t, .acquireRetest l ∈ k.stack t →
    .acquireReturn l ∈ k.stack t ∧ k.threadHeld l ≠ some t
  coming : k.locked l = false → k.queue (.lock l) ≠ [] → ∃ t, k.InFlight (.lock l) t

/-- The current thread is at the loop test of `Acquire`. -/
structure Testing (l : Obj) (k : Kernel ρ δ) : Prop where
  holder : ∀ t, t ≠ k.currentThread →
    (k.threadHeld l = some t ↔ Between l t k.log ∨ k.Chosen l t)
  other : k.threadHeld l ≠ some k.currentThread
  outside : ¬ Between l k.currentThread k.log
  entered : .acquireReturn l ∈ k.stack k.currentThread
  locked : k.locked l = (k.threadHeld l).isSome
  inside : ∀ t, .acquireRetest l ∈ k.stack t →
    .acquireReturn l ∈ k.stack t ∧ k.threadHeld l ≠ some t
  testing : .acquireRetest l ∉ k.stack k.currentThread

variable {l : Obj}

theorem Sound.init (start : ρ) (data : δ) (initialValue : ℕ → ℤ) :
    Sound l (Kernel.init start data initialValue) := by
  refine ⟨?_, rfl, ?_, ?_⟩
  · intro t
    simp [Kernel.init, Between, Chosen]
  · simp [Kernel.init]
  · simp [Kernel.init]

theorem Sound.same {k k' : Kernel ρ δ} (h : Sound l k) (hs : Same (.lock l) k k') : Sound l k' := by
  have hret : ∀ t, .acquireReturn l ∈ k'.stack t ↔ .acquireReturn l ∈ k.stack t :=
    hs.mem_stack rfl
  have htest : ∀ t, .acquireRetest l ∈ k'.stack t ↔ .acquireRetest l ∈ k.stack t :=
    hs.mem_stack rfl
  refine ⟨?_, ?_, ?_, ?_⟩
  · intro t
    rw [hs.threadHeld l rfl, ← between_eventsOf, hs.log, between_eventsOf, h.holder t]
    simp only [Chosen, hret, htest]
  · rw [hs.locked l rfl, hs.threadHeld l rfl]
    exact h.locked
  · intro t
    rw [hret, htest, hs.threadHeld l rfl]
    exact h.inside t
  · rw [hs.locked l rfl, hs.queue]
    intro hl hq
    obtain ⟨t, ht⟩ := h.coming hl hq
    exact ⟨t, (hs.inFlight t).2 ht⟩

/-- The end of the loop test: the thread has the lock, or sleeps because it is held. -/
theorem Testing.acquireLoop {k k' : Kernel ρ δ} (h : Testing l k)
    (hk' : k.acquireLoop l = .ok k') : Sound l k' := by
  unfold Kernel.acquireLoop at hk'
  split at hk'
  · rename_i hlocked
    simp only [sleep, assertThen_ok, Except.ok.injEq] at hk'
    obtain ⟨-, rfl⟩ := hk'
    refine ⟨?_, h.locked, ?_, ?_⟩
    · intro t
      by_cases ht : t = k.currentThread
      · subst ht
        simpa [Chosen, h.outside] using h.other
      · simpa [Chosen, ht] using h.holder t ht
    · intro t
      by_cases ht : t = k.currentThread
      · subst ht
        simpa [h.entered] using h.other
      · simpa [ht] using h.inside t
    · simp [hlocked]
  · rename_i hlocked
    cases hk'
    have hnone : k.threadHeld l = none := by
      have := h.locked
      simpa [hlocked] using this.symm
    refine ⟨?_, by simp, ?_, by simp⟩
    · intro t
      by_cases ht : t = k.currentThread
      · subst ht
        simp [Chosen, h.entered, h.testing]
      · have := h.holder t ht
        simpa [Between, Chosen, hnone, Ne.symm ht] using this
    · intro t hmem
      refine ⟨(h.inside t hmem).1, ?_⟩
      rintro heq
      have ht : k.currentThread = t := by simpa using heq
      subst ht
      exact h.testing hmem

/-- A call cannot be pending on top of the frames of `Acquire`, except `Yield`. -/
theorem not_mem_of_issues {cl : Client ρ δ α} {k k₀ : Kernel ρ δ} {lab : Label α} {o : Call ρ}
    (hi : Issues cl k lab o k₀) (ht : k.Tidy) (ho : o ≠ .yield) :
    .acquireReturn l ∉ k₀.stack k₀.currentThread ∧
      .acquireRetest l ∉ k₀.stack k₀.currentThread := by
  cases hi with
  | own a o pc data hs hnext hpub => simp [hs]
  | inner o rest hs =>
      have hp := ht.above k.currentThread
      rw [hs, List.pairwise_cons] at hp
      simp only [setStack_stack, setStack_currentThread, Function.update_self]
      constructor
      · intro hmem
        have := hp.1 _ hmem
        cases o <;> simp_all [Above, Frame.Calm]
      · intro hmem
        have := hp.1 _ hmem
        simp [Above] at this

theorem Sound.acquire {k k' : Kernel ρ δ} (h : Sound l k)
    (htest : .acquireRetest l ∉ k.stack k.currentThread) (hk' : k.acquire l = .ok k') :
    Sound l k' := by
  simp only [Kernel.acquire, assertThen_ok] at hk'
  obtain ⟨hassert, hk'⟩ := hk'
  have hother : k.threadHeld l ≠ some k.currentThread := by
    intro heq
    have hl := h.locked
    rw [heq] at hl
    simp [hl, heq] at hassert
  have hnot : ¬ (Between l k.currentThread k.log ∨ k.Chosen l k.currentThread) := fun hb =>
    hother ((h.holder k.currentThread).2 hb)
  have ht : Testing l ((k.disable.push (.acquireReturn l)).push (.setLevel k.level)) := by
    refine ⟨?_, hother, fun hb => hnot (.inl hb), by simp, h.locked, ?_, by simpa using htest⟩
    · intro t ht
      have ht' : t ≠ k.currentThread := ht
      simpa [Chosen, ht'] using h.holder t
    · intro t
      by_cases ht : t = k.currentThread
      · subst ht
        simp [htest]
      · simpa [ht] using h.inside t
  exact ht.acquireLoop hk'

theorem Sound.retest {k k' : Kernel ρ δ} {rest : List (Frame ρ)} (h : Sound l k) (ht : k.Tidy)
    (hs : k.stack k.currentThread = .acquireRetest l :: rest)
    (hk' : (k.setStack rest).acquireLoop l = .ok k') : Sound l k' := by
  have hp := ht.above k.currentThread
  rw [hs, List.pairwise_cons] at hp
  have hmem : .acquireRetest l ∈ k.stack k.currentThread := by simp [hs]
  obtain ⟨hret, hother⟩ := h.inside _ hmem
  have hret : .acquireReturn l ∈ rest := by simpa [hs] using hret
  have hrest : .acquireRetest l ∉ rest := by
    intro hm
    have := hp.1 _ hm
    simp [Above] at this
  have hout : ¬ Between l k.currentThread k.log := fun hb =>
    hother ((h.holder k.currentThread).2 (.inl hb))
  have ht : Testing l (k.setStack rest) := by
    refine ⟨?_, hother, hout, by simpa using hret, h.locked, ?_, by simpa using hrest⟩
    · intro t ht
      have ht' : t ≠ k.currentThread := ht
      simpa [Chosen, ht'] using h.holder t
    · intro t
      by_cases ht : t = k.currentThread
      · subst ht
        simp [hrest]
      · simpa [ht] using h.inside t
  exact ht.acquireLoop hk'

theorem Sound.returned {k : Kernel ρ δ} {rest : List (Frame ρ)} (h : Sound l k) (ht : k.Tidy)
    (hs : k.stack k.currentThread = .acquireReturn l :: rest) :
    Sound l ((k.setStack rest).note (.acquireReturned l k.currentThread)) := by
  have hp := ht.above k.currentThread
  rw [hs, List.pairwise_cons] at hp
  have hrest : .acquireRetest l ∉ rest := by
    intro hm
    have := hp.1 _ hm
    simp [Above] at this
  have hheld : k.threadHeld l = some k.currentThread :=
    (h.holder _).2 (.inr ⟨by simp [hs], by simp [hs, hrest]⟩)
  refine ⟨?_, h.locked, ?_, ?_⟩
  · intro t
    by_cases ht : t = k.currentThread
    · subst ht
      simp [hheld, Between]
    · have := h.holder t
      simpa [Between, Chosen, ht, Ne.symm ht] using this
  · intro t
    by_cases ht : t = k.currentThread
    · subst ht
      simp [hrest]
    · simpa [ht] using h.inside t
  · have hl := h.locked
    simp [hheld] at hl
    simp [hl]

theorem Sound.release {k k' : Kernel ρ δ} (h : Sound l k) (hp : k.Awake)
    (hret : .acquireReturn l ∉ k.stack k.currentThread)
    (htest : .acquireRetest l ∉ k.stack k.currentThread) (hk' : k.release l = .ok k') :
    Sound l k' := by
  simp only [Kernel.release, assertThen_ok, Except.ok.injEq] at hk'
  obtain ⟨⟨-, hheld⟩, rfl⟩ := hk'
  obtain ⟨st, qu, hw⟩ := ((k.disable.push (.setLevel k.level)).note
    (.releaseCalled l k.currentThread)).wakeOne_eq (.lock l)
  refine ⟨?_, by simp, ?_, ?_⟩
  · intro t
    by_cases ht : t = k.currentThread
    · subst ht
      simp [hw, Between, Chosen, hret]
    · have := h.holder t
      simpa [hw, Between, Chosen, ht, Ne.symm ht, hheld] using this
  · intro t
    by_cases ht : t = k.currentThread
    · subst ht
      simp [hw, htest]
    · simp only [hw, Function.update_self]
      intro hmem
      exact ⟨by simpa [ht] using (h.inside t (by simpa [ht] using hmem)).1, by simp⟩
  · intro _ hq
    -- the thread at the front of the queue is the one that is woken
    cases hes : k.queue (.lock l) with
    | nil => simp [wakeOne, remove, hes] at hq
    | cons e es =>
        have hne := hp.ne_of_front hes
        obtain ⟨f, hmem, hf⟩ := inLoop_of_mem hp.toPlaced (q := .lock l) (by simp)
          (t := e.item) (by simp [hes])
        refine ⟨e.item, ⟨f, ?_, hf⟩, ?_⟩
        · simpa [hw, hne.symm] using hmem
        · simpa [wakeOne, remove, hes] using hp.seated.front_not_mem hes

theorem Sound.step {cl : Client ρ δ α} {k k' : Kernel ρ δ} {lab : Label α} (h : Sound l k)
    (ht : k.Tidy) (hp : k.Placed) (hk' : Kernel.step cl k lab = .ok k') : Sound l k' := by
  rcases step_object (x := .lock l) (by simp) ht hp hk' with
    hs | ⟨o, k₀, hi, ho, he⟩ | ⟨f, rest, hs, hf, hne, -, hr⟩ | ⟨a, s, hx, -⟩
  · exact h.same hs
  · have h₀ : Sound l k₀ := h.same hi.same
    cases o with
    | acquire l' =>
        obtain rfl : l' = l := by simpa [Call.about] using ho
        exact h₀.acquire (not_mem_of_issues hi ht (by simp)).2 he
    | release l' =>
        obtain rfl : l' = l := by simpa [Call.about] using ho
        obtain ⟨hret, htest⟩ := not_mem_of_issues (l := l') hi ht (by simp)
        exact h₀.release (hi.awake hp) hret htest he
    | _ => simp [Call.about] at ho
  · cases f with
    | acquireRetest l' =>
        obtain rfl : l' = l := by simpa [Frame.about] using hf
        cases lab with
        | go => exact h.retest ht hs hr
        | _ => cases hr
    | acquireReturn l' =>
        obtain rfl : l' = l := by simpa [Frame.about] using hf
        cases lab with
        | go =>
            cases hr
            exact h.returned ht hs
        | _ => cases hr
    | _ => simp [Frame.about] at hf
  · cases hx

theorem acquireLoop_held {k k' : Kernel ρ δ} {t : Tid} (hl : k.locked l = (k.threadHeld l).isSome)
    (ht : k.threadHeld l = some t) (hk' : k.acquireLoop l = .ok k') : k'.threadHeld l = some t := by
  unfold Kernel.acquireLoop at hk'
  split at hk'
  · simp only [sleep, assertThen_ok, Except.ok.injEq] at hk'
    obtain ⟨-, rfl⟩ := hk'
    exact ht
  · rename_i hfree
    simp [hl, ht] at hfree

/-- A lock is given back only by its holder, in a call of `Release`. -/
theorem Sound.held_step {cl : Client ρ δ α} {k k' : Kernel ρ δ} {lab : Label α} {t : Tid}
    (h : Sound l k) (ht : k.Tidy) (hp : k.Placed) (hk' : Kernel.step cl k lab = .ok k')
    (hheld : k.threadHeld l = some t) :
    k'.threadHeld l = some t ∨
      t = k.currentThread ∧ ∃ k₀, Issues cl k lab (.release l) k₀ ∧ k₀.release l = .ok k' := by
  rcases step_object (x := .lock l) (by simp) ht hp hk' with
    hs | ⟨o, k₀, hi, ho, he⟩ | ⟨f, rest, hs, hf, hne, -, hr⟩ | ⟨a, s, hx, -⟩
  · exact .inl ((hs.threadHeld l rfl).trans hheld)
  · have h₀ : Sound l k₀ := h.same hi.same
    have hheld₀ : k₀.threadHeld l = some t := (hi.same.threadHeld l rfl).trans hheld
    cases o with
    | acquire l' =>
        obtain rfl : l' = l := by simpa [Call.about] using ho
        simp only [exec, Kernel.acquire, assertThen_ok] at he
        have hloop := he.2
        exact .inl (acquireLoop_held (by exact h₀.locked) (by exact hheld₀) hloop)
    | release l' =>
        obtain rfl : l' = l := by simpa [Call.about] using ho
        refine .inr ⟨?_, k₀, hi, he⟩
        simp only [exec, Kernel.release, assertThen_ok] at he
        have := he.1.2
        rw [hheld₀] at this
        rw [Option.some.inj this, hi.currentThread_eq]
    | _ => simp [Call.about] at ho
  · cases f with
    | acquireRetest l' =>
        obtain rfl : l' = l := by simpa [Frame.about] using hf
        cases lab with
        | go => exact .inl (acquireLoop_held (k := k.setStack rest) h.locked hheld hr)
        | _ => cases hr
    | acquireReturn l' =>
        cases lab with
        | go =>
            cases hr
            exact .inl hheld
        | _ => cases hr
    | _ => simp [Frame.about] at hf
  · cases hx

end Lock

theorem Runs.lock {cl : Client ρ δ α} {start : ρ} {data : δ} {initialValue : ℕ → ℤ}
    {k : Kernel ρ δ} (h : Runs cl start data initialValue k) (l : Obj) : Lock.Sound l k :=
  Reachable.invariant (I := Lock.Sound l) (.init start data initialValue)
    (fun _ _ _ hk hi hs => hi.step (Runs.tidy hk) (Runs.placed hk) hs) h

/-- At most one thread is between the return of `Acquire` and its call of
`Release`; `locked` and `threadHeld` tell which, or which thread has been chosen
inside `Acquire`; and when the lock is free and has waiters, some thread that
`Release` has removed from the queue can run and has not tested the lock again. -/
theorem lock_safe (cl : Client ρ δ α) (start : ρ) (data : δ) (initialValue : ℕ → ℤ)
    (k : Kernel ρ δ) (h : Runs cl start data initialValue k) (l : Obj) :
    (∀ t u, Between l t k.log → Between l u k.log → t = u) ∧
      (k.locked l = true ↔ ∃ t, Between l t k.log ∨ k.Chosen l t) ∧
        (∀ t, k.threadHeld l = some t ↔ Between l t k.log ∨ k.Chosen l t) ∧
          (k.threadHeld l = none ↔ k.locked l = false) ∧
            (k.locked l = false → k.queue (.lock l) ≠ [] →
              ∃ t, k.InFlight (.lock l) t ∧ (k.status t = .ready ∨ k.status t = .running)) := by
  have hl := h.lock l
  refine ⟨?_, ?_, hl.holder, ?_, ?_⟩
  · intro t u ht hu
    have ht := (hl.holder t).2 (.inl ht)
    have hu := (hl.holder u).2 (.inl hu)
    rw [ht] at hu
    exact Option.some.inj hu
  · rw [hl.locked, Option.isSome_iff_exists]
    exact exists_congr hl.holder
  · rw [hl.locked]
    cases k.threadHeld l <;> simp
  · intro hfree hq
    obtain ⟨t, ht⟩ := hl.coming hfree hq
    exact ⟨t, ht, ht.runnable h.tidy h.placed⟩

/-- The main thread acquires a lock that two others wait for, and releases it. -/
def oneLock : Tid → ℕ → Option (Call ℕ)
  | 0, 0 => some (.fork 1 0 0)
  | 0, 1 => some (.fork 2 0 0)
  | 0, 2 => some (.acquire (.user 0))
  | 0, 3 => some .yield
  | 0, _ => some (.release (.user 0))
  | _, _ => some (.acquire (.user 0))

/-- The first of the two has been woken while the second one waits. -/
theorem lock_safe_acquired :
    ∃ k k', Runs (scripted oneLock) 0 () (fun _ => 0) k ∧
      runFrom (step (scripted oneLock)) k (turns [((), 3)]) = .ok k' ∧
      k.locked (.user 0) = true ∧ (∃ t, Between (.user 0) t k.log ∨ k.Chosen (.user 0) t) ∧
      k'.locked (.user 0) = false ∧ k'.queue (.lock (.user 0)) ≠ [] ∧
        ∃ t, k'.InFlight (.lock (.user 0)) t ∧ (k'.status t = .ready ∨ k'.status t = .running) := by
  have hpass : passes (step (scripted oneLock)) (init 0 () fun _ => 0)
      (turns [((), 3), ((), 3), ((), 4), ((), 3), ((), 4), ((), 5)])
      (fun k => k.locked (.user 0) && passes (step (scripted oneLock)) k (turns [((), 3)])
        fun k' => !k'.locked (.user 0) && !(k'.queue (.lock (.user 0))).isEmpty) = true := by
    decide +kernel
  obtain ⟨k, hk, hend⟩ := exists_of_passes _ hpass
  rw [Bool.and_eq_true] at hend
  obtain ⟨hlocked, hpass'⟩ := hend
  obtain ⟨k', hrun, hend'⟩ := runFrom_of_passes hpass'
  simp only [Bool.and_eq_true, Bool.not_eq_true', List.isEmpty_eq_false_iff] at hend'
  obtain ⟨hfree, hqueue⟩ := hend'
  have hk' : Runs (scripted oneLock) 0 () (fun _ => 0) k' := hk.trans ⟨_, hrun⟩
  obtain ⟨-, hheld, -⟩ := lock_safe _ _ _ _ k hk (.user 0)
  obtain ⟨-, -, -, -, hcoming⟩ := lock_safe _ _ _ _ k' hk' (.user 0)
  exact ⟨k, k', hk, hrun, hlocked, hheld.1 hlocked, hfree, hqueue, hcoming hfree hqueue⟩

end Kernel

end Nachos
