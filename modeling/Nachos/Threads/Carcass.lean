import Nachos.Threads.Handshake

/-!
# The carcass of a finished thread

`Thread::Finish` leaves its thread in `threadToBeDestroyed`, and the thread that
continues after `SWITCH` in `Scheduler::Run` deletes it. A thread that is
dispatched for the first time does not continue there but in `ThreadRoot`, so the
variable can still be in use when the next thread finishes. It is free at every
`Finish` exactly when a thread that had run before is dispatched between any two
of them, and then no finished thread is forgotten.
-/

namespace Nachos

open Lib



/-- The threads that have come to the end of `Finish`, the last one first. -/
def finishedThreads (es : List Event) : List Tid :=
  es.filterMap fun
    | .finishCompleted t => some t
    | _ => none

theorem finishedThreads_deeds (es : List Event) :
    finishedThreads (deeds es) = finishedThreads es := by
  induction es with
  | nil => rfl
  | cons e es ih =>
      by_cases he : e.about = none
      · have hcons : deeds (e :: es) = e :: deeds es := by simp [deeds, he]
        rw [hcons, finishedThreads, List.filterMap_cons, ← finishedThreads, ih]
        rfl
      · rw [deeds_cons_other he, ih]
        cases e <;> first | rfl | exact absurd rfl he

theorem mem_finishedThreads {es : List Event} {t : Tid} :
    t ∈ finishedThreads es ↔ .finishCompleted t ∈ es := by
  simp only [finishedThreads, List.mem_filterMap]
  constructor
  · rintro ⟨e, he, heq⟩
    cases e <;> simp_all
  · exact fun h => ⟨_, h, rfl⟩

namespace Kernel

variable {ρ δ α : Type}

/-- `Finish` is about to assign `threadToBeDestroyed`. -/
def finishes (k : Kernel ρ δ) : Bool :=
  match k.stack k.currentThread with
  | .finishDone :: _ => true
  | _ => false

/-- The current thread continues after `SWITCH` in `Scheduler::Run`. -/
def continues (k : Kernel ρ δ) : Bool :=
  match k.stack k.currentThread with
  | .afterSwitch :: _ => true
  | _ => false

/-- The argument of the `delete` in `Scheduler::Run`. -/
def buries (k : Kernel ρ δ) : Option Tid :=
  if k.continues then k.threadToBeDestroyed else none

/-- The threads that are deleted in a run. -/
def deletions (cl : Client ρ δ α) : Kernel ρ δ → List (Label α) → List Tid
  | _, [] => []
  | k, lab :: labs =>
      match step cl k lab with
      | .ok k' => k.buries.toList ++ deletions cl k' labs
      | .error _ => []

/-- What a step does to `threadToBeDestroyed` and to the list of the finished threads. -/
theorem step_carcass {cl : Client ρ δ α} {k k' : Kernel ρ δ} {lab : Label α}
    (h : step cl k lab = .ok k') :
    (k.finishes = true ∧ k.continues = false ∧
      k'.threadToBeDestroyed = some k.currentThread ∧
        finishedThreads k'.log = k.currentThread :: finishedThreads k.log) ∨
      (k.finishes = false ∧ k.continues = true ∧ k'.threadToBeDestroyed = none ∧
        finishedThreads k'.log = finishedThreads k.log) ∨
        (k.finishes = false ∧ k.continues = false ∧
          k'.threadToBeDestroyed = k.threadToBeDestroyed ∧
            finishedThreads k'.log = finishedThreads k.log) := by
  have hlog : ∀ f, Unmarked (k.mark f) k' →
      finishedThreads k'.log = finishedThreads (f.deeds k.currentThread ++ k.log) := by
    intro f hm
    rw [← finishedThreads_deeds, hm.deeds, finishedThreads_deeds, mark_log]
  rcases step_mark h with ⟨f, rest, hs, hm⟩ | ⟨a, o, pc, data, -, hs, -, -, -, hm⟩
  · have hl := hlog f hm
    have ht := hm.threadToBeDestroyed
    cases f with
    | finishDone => exact .inl ⟨by simp [finishes, hs], by simp [continues, hs], ht, hl⟩
    | afterSwitch =>
        refine .inr (.inl ⟨by simp [finishes, hs], by simp [continues, hs], ?_, hl⟩)
        simp only [mark] at ht
        split at ht
        · rename_i hnone
          exact ht.trans hnone
        · exact ht
    | call o =>
        refine .inr (.inr ⟨by simp [finishes, hs], by simp [continues, hs], ?_, ?_⟩)
        · cases o <;> exact ht
        · cases o <;> exact hl
    | _ => exact .inr (.inr ⟨by simp [finishes, hs], by simp [continues, hs], ht, hl⟩)
  · have hl := hlog _ hm
    have ht := hm.threadToBeDestroyed
    refine .inr (.inr ⟨by simp [finishes, hs], by simp [continues, hs], ?_, ?_⟩)
    · cases o <;> exact ht
    · cases o <;> exact hl

theorem deleted_of_step {cl : Client ρ δ α} {k k' : Kernel ρ δ} {lab : Label α}
    (h : step cl k lab = .ok k') {u : Tid} (hdel : k'.deleted u = true) :
    k.deleted u = true ∨ k.buries = some u := by
  rcases step_mark h with ⟨f, rest, hs, hm⟩ | ⟨a, o, pc, data, -, hs, -, -, -, hm⟩
  · rw [hm.deleted] at hdel
    cases f with
    | afterSwitch =>
        simp only [mark] at hdel
        split at hdel
        · exact .inl hdel
        · rename_i t ht
          by_cases hut : u = t
          · exact .inr (by simp [buries, continues, hs, ht, hut])
          · exact .inl (by simpa [hut] using hdel)
    | call o => cases o <;> exact .inl hdel
    | _ => exact .inl hdel
  · rw [hm.deleted] at hdel
    cases o <;> exact .inl hdel

/-- The variable is free at every `Finish` exactly when a thread that had run before is
dispatched between any two of them. -/
theorem meets_free_iff_apart (cl : Client ρ δ α) {k₀ : Kernel ρ δ}
    (h₀ : k₀.threadToBeDestroyed = none) (labs : List (Label α)) :
    Meets (step cl) (fun k _ => k.finishes = true → k.threadToBeDestroyed = none) k₀ labs ↔
      Apart (step cl) (fun k _ => k.finishes = true) (fun k _ => k.continues = true) k₀ labs := by
  have hiff : Meets (step cl) (fun k _ => k.finishes = true → ¬ k.threadToBeDestroyed ≠ none)
      k₀ labs ↔ Apart (step cl) (fun k _ => k.finishes = true) (fun k _ => k.continues = true)
        k₀ labs := by
    refine meets_flag_down_iff_apart (F := fun k : Kernel ρ δ => k.threadToBeDestroyed ≠ none)
      (not_not.2 h₀) ?_ ?_ ?_ labs
    · intro k lab k' _ hs hp
      grind [step_carcass hs]
    · intro k lab k' _ hs hq
      grind [step_carcass hs]
    · intro k lab k' _ hs hp hq
      grind [step_carcass hs]
  simpa only [not_not, ne_eq] using hiff

/-- While the variable is free at every `Finish`, the threads that finish are those that are
deleted and the one that is to be destroyed. -/
theorem finishedThreads_perm {cl : Client ρ δ α} {k k' : Kernel ρ δ} {labs : List (Label α)}
    (h : Meets (step cl) (fun k _ => k.finishes = true → k.threadToBeDestroyed = none) k labs)
    (hk' : runFrom (step cl) k labs = .ok k') :
    (finishedThreads k'.log ++ k.threadToBeDestroyed.toList).Perm
      (finishedThreads k.log ++ (deletions cl k labs ++ k'.threadToBeDestroyed.toList)) := by
  induction labs generalizing k with
  | nil =>
      cases hk'
      exact .refl _
  | cons lab labs ih =>
      obtain ⟨m, hm, hk'⟩ := (runFrom_cons_ok (step cl) k k' lab labs).1 hk'
      have ih := ih (h.2 m hm) hk'
      simp only [List.perm_iff_count, List.count_append, deletions, hm, buries] at ih ⊢
      intro t
      specialize ih t
      rcases step_carcass hm with ⟨hf, hc, ht, hl⟩ | ⟨hf, hc, ht, hl⟩ | ⟨hf, hc, ht, hl⟩
      · rw [ht, hl, List.count_cons] at ih
        simp only [h.1 hf, hc, Bool.false_eq_true, if_false, Option.toList, List.count_nil,
          List.count_cons] at ih ⊢
        omega
      · rw [ht, hl] at ih
        simp only [hc, if_true, Option.toList_none, List.count_nil] at ih ⊢
        omega
      · rw [ht, hl] at ih
        simp only [hc, Bool.false_eq_true, if_false, Option.toList_none, List.count_nil] at ih ⊢
        omega

/-- A thread comes to the end of `Finish` once. -/
theorem Runs.nodup_finishedThreads {cl : Client ρ δ α} {start : ρ} {data : δ}
    {initialValue : ℕ → ℤ} {k : Kernel ρ δ} (h : Runs cl start data initialValue k) :
    (finishedThreads k.log).Nodup := by
  refine Reachable.invariant (I := fun k => (finishedThreads k.log).Nodup) ?_ ?_ h
  · exact List.nodup_nil
  · intro k lab k' hk hi hs
    rcases step_carcass hs with ⟨hf, -, -, hl⟩ | ⟨-, -, -, hl⟩ | ⟨-, -, -, hl⟩
    · rw [hl, List.nodup_cons]
      refine ⟨fun hmem => ?_, hi⟩
      -- the thread runs, and one that has finished sleeps
      obtain ⟨hb, -⟩ := (Runs.placed hk |>.finished _).2 (mem_finishedThreads.1 hmem)
      rcases (Runs.placed hk).current with ⟨hr, -⟩ | ⟨rest, hrest, -⟩
      · rw [hr] at hb
        cases hb
      · simp [finishes, hrest] at hf
    · rwa [hl]
    · rwa [hl]

/-- In every run of every program: `threadToBeDestroyed` is free whenever `Finish` assigns it,
so that each finished thread has been deleted once or is the one still to be destroyed,
exactly when between any two ends of `Finish` a thread that had run before is dispatched. -/
theorem no_thread_forgotten_iff (cl : Client ρ δ α) (start : ρ) (data : δ)
    (initialValue : ℕ → ℤ) (labs : List (Label α)) (k : Kernel ρ δ)
    (h : runFrom (step cl) (init start data initialValue) labs = .ok k) :
    (Meets (step cl) (fun k _ => k.finishes = true → k.threadToBeDestroyed = none)
        (init start data initialValue) labs ∧
      (finishedThreads k.log).Nodup ∧
        (finishedThreads k.log).Perm
          (deletions cl (init start data initialValue) labs ++ k.threadToBeDestroyed.toList)) ↔
      Apart (step cl) (fun k _ => k.finishes = true) (fun k _ => k.continues = true)
        (init start data initialValue) labs := by
  rw [← meets_free_iff_apart cl rfl]
  refine ⟨fun hall => hall.1, fun hfree => ⟨hfree, Runs.nodup_finishedThreads ⟨labs, h⟩, ?_⟩⟩
  simpa [init, finishedThreads] using finishedThreads_perm hfree h

/-- The main thread forks the threads 1 and 2, which finish, and yields after each of them. -/
def forkOneByOne : Tid → ℕ → Option (Call ℕ)
  | 0, 0 => some (.fork 1 0 0)
  | 0, 1 => some .yield
  | 0, 2 => some (.fork 2 0 0)
  | 0, 3 => some .yield
  | 1, 0 => some .finish
  | 2, 0 => some .finish
  | _, _ => none

/-- The main thread continues after each of the two, and deletes it. -/
theorem no_thread_forgotten_oneByOne :
    ∃ labs k, runFrom (step (scripted forkOneByOne)) (init 0 () fun _ => 0) labs = .ok k ∧
      finishedThreads k.log = [2, 1] ∧ k.threadToBeDestroyed = none ∧
        (finishedThreads k.log).Perm
          (deletions (scripted forkOneByOne) (init 0 () fun _ => 0) labs) := by
  let labs : List (Label Unit) := [.act (), .go, .go, .go, .act (), .go, .go, .go, .act (), .go,
      .go, .go, .go, .go, .go, .go, .go, .go, .go, .go, .go, .go, .act (), .go, .go, .go, .act (),
      .go, .go, .go, .act (), .go, .go, .go, .go, .go, .go, .go, .go, .go, .go, .go, .go, .go]
  have hpass : passesMeeting (step (scripted forkOneByOne))
      (fun k _ => decide (k.finishes = true → k.threadToBeDestroyed = none))
      (fun k => finishedThreads k.log = [2, 1] ∧ k.threadToBeDestroyed = none)
      (init 0 () fun _ => 0) labs = true := by
    decide +kernel
  obtain ⟨hmeets, k, hk, hend⟩ := of_passesMeeting hpass
  obtain ⟨hfin, hnone⟩ := of_decide_eq_true hend
  have hapart := (meets_free_iff_apart (scripted forkOneByOne) rfl labs).1
    (hmeets.imp fun _ _ h => of_decide_eq_true h)
  have hall :=
    (no_thread_forgotten_iff (scripted forkOneByOne) 0 () (fun _ => 0) labs k hk).2 hapart
  exact ⟨labs, k, hk, hfin, hnone, by simpa [hnone] using hall.2.2⟩

/-- The main thread forks the threads 1 and 2, which finish, and yields. -/
def forkTwo : Tid → ℕ → Option (Call ℕ)
  | 0, 0 => some (.fork 1 0 0)
  | 0, 1 => some (.fork 2 0 0)
  | 0, 2 => some .yield
  | 1, 0 => some .finish
  | 2, 0 => some .finish
  | _, _ => none

/-- The thread 2 starts after the thread 1 has finished, and overwrites it: when the main
thread runs again it deletes the thread 2, and the thread 1 stays. -/
theorem finish_overwrites :
    ∃ k, Runs (scripted forkTwo) 0 () (fun _ => 0) k ∧ k.finishes = true ∧
      k.threadToBeDestroyed = some 1 ∧
        ∃ k', Reachable (step (scripted forkTwo)) k k' ∧ finishedThreads k'.log = [2, 1] ∧
          k'.threadToBeDestroyed = none ∧ k'.deleted 2 = true ∧ k'.deleted 1 = false := by
  have hpass : passes (step (scripted forkTwo)) (init 0 () fun _ => 0) [.act (), .go, .go, .go,
      .act (), .go, .go, .go, .act (), .go, .go, .go, .act (), .go, .go, .go, .go, .go, .go, .go,
      .go, .go, .go, .go, .go, .act (), .go, .go, .go, .go, .go, .go, .go]
      (fun k => k.finishes = true ∧ k.threadToBeDestroyed = some 1 ∧
        passes (step (scripted forkTwo)) k [.go, .go, .go]
          (fun k' => finishedThreads k'.log = [2, 1] ∧ k'.threadToBeDestroyed = none ∧
            k'.deleted 2 = true ∧ k'.deleted 1 = false) = true) = true := by
    decide +kernel
  obtain ⟨k, hk, hend⟩ := exists_of_passes _ hpass
  obtain ⟨hf, ht, hpass'⟩ := of_decide_eq_true hend
  obtain ⟨k', hk', hend'⟩ := exists_of_passes _ hpass'
  exact ⟨k, hk, hf, ht, k', hk', of_decide_eq_true hend'⟩

end Kernel

end Nachos
