import Nachos.Threads.Objects
import Mathlib.Data.Set.Card

/-!
# Semaphores

`Semaphore::V` wakes a thread and also increments the value, so a unit can be
taken by a thread that has never slept, and the woken thread goes back to sleep.
`Semaphore.Sound` keeps the account of the units and bounds them by the number of
woken threads as long as somebody waits. The value is an `int`, so it is the number
of units only as long as this number is one.
-/

namespace Nachos

open Lib



/-- `value--` in some `P` on the semaphore. -/
def Event.isP (s : ℕ) : Event → Bool
  | .pDone s' _ => s' = s
  | _ => false

/-- How many `V` have incremented the value. -/
def completedV (s : ℕ) (es : List Event) : ℕ := es.count (.vDone s)

/-- How many `P` have taken a unit. -/
def completedP (s : ℕ) (es : List Event) : ℕ := es.countP (Event.isP s)

theorem completedV_eventsOf (s : ℕ) (es : List Event) :
    completedV s (eventsOf (.semaphore s) es) = completedV s es :=
  List.count_filter (by simp [Event.about])

theorem completedP_eventsOf (s : ℕ) (es : List Event) :
    completedP s (eventsOf (.semaphore s) es) = completedP s es := by
  unfold completedP eventsOf
  rw [List.countP_filter]
  apply List.countP_congr
  intro e _
  cases e <;> simp [Event.isP, Event.about]

/-- The initial value with a unit for each `V` and without one for each `P`. -/
def units (s : ℕ) (n : ℤ) (es : List Event) : ℤ := n + completedV s es - completedP s es

theorem units_eventsOf (s : ℕ) (n : ℤ) (es : List Event) :
    units s n (eventsOf (.semaphore s) es) = units s n es := by
  rw [units, completedV_eventsOf, completedP_eventsOf, units]

theorem units_pDone (s : ℕ) (n : ℤ) (t : Tid) (es : List Event) :
    units s n (.pDone s t :: es) = units s n es - 1 := by
  unfold units completedV completedP
  rw [List.count_cons_of_ne (by simp), List.countP_cons_of_pos (by simp [Event.isP])]
  push_cast
  omega

theorem units_vDone (s : ℕ) (n : ℤ) (es : List Event) :
    units s n (.vDone s :: es) = units s n es + 1 := by
  unfold units completedV completedP
  rw [List.count_cons_self, List.countP_cons_of_neg (by simp [Event.isP])]
  push_cast
  omega

theorem Frame.home_eq_semaphore {ρ : Type} {f : Frame ρ} {s : ℕ} :
    f.home = some (.semaphore s) ↔ f = .pRetest s := by
  cases f <;> simp [Frame.home]

namespace Kernel

variable {ρ δ α : Type}

theorem inLoop_semaphore {k : Kernel ρ δ} {s : ℕ} {t : Tid} :
    k.InLoop (.semaphore s) t ↔ .pRetest s ∈ k.stack t := by
  simp [InLoop, Frame.home_eq_semaphore]

theorem Same.units_eq {k k' : Kernel ρ δ} {s : ℕ} (h : Same (.semaphore s) k k') (n : ℤ) :
    units s n k'.log = units s n k.log := by
  rw [← units_eventsOf, h.log, units_eventsOf]

namespace Semaphore

/-- What is true of the semaphore `s` with initial value `n` in every state: `S` is
the set of threads that `V` has removed from the queue and that have not tested
the value again. -/
structure Sound (s : ℕ) (n : ℤ) (k : Kernel ρ δ) : Prop where
  nonneg : 0 ≤ units s n k.log
  value_eq : k.value s = Int.bmod (units s n k.log) (2 ^ 32)
  -- `P` goes to sleep while there are units when their number is a multiple of `2 ^ 32`
  flying : ∃ S : Finset Tid, (∀ t, t ∈ S ↔ k.InFlight (.semaphore s) t) ∧
    (k.queue (.semaphore s) ≠ [] → units s n k.log ≤ S.card ∨ 2 ^ 32 ≤ units s n k.log)

/-- The current thread is at the loop test of `P`; it may have been one of the
woken threads. -/
structure Testing (s : ℕ) (n : ℤ) (k : Kernel ρ δ) : Prop where
  nonneg : 0 ≤ units s n k.log
  value_eq : k.value s = Int.bmod (units s n k.log) (2 ^ 32)
  flying : ∃ S : Finset Tid, (∀ t, t ∈ S ↔ k.InFlight (.semaphore s) t) ∧
    (k.queue (.semaphore s) ≠ [] → units s n k.log ≤ S.card + 1 ∨ 2 ^ 32 ≤ units s n k.log)
  outside : .pRetest s ∉ k.stack k.currentThread

variable {s : ℕ} {n : ℤ}

theorem Sound.init (start : ρ) (data : δ) (initialValue : ℕ → ℤ) (h : 0 ≤ initialValue s)
    (hmax : initialValue s ≤ intMax) :
    Sound s (initialValue s) (Kernel.init start data initialValue) := by
  have hunits : units s (initialValue s) (Kernel.init start data initialValue).log =
      initialValue s := by
    simp [units, Kernel.init, completedV, completedP]
  refine ⟨by rwa [hunits], ?_, ∅, ?_, ?_⟩
  · rw [hunits, Int.bmod_def]
    unfold intMax at hmax
    change initialValue s = _
    omega
  · simp [InFlight, InLoop, Kernel.init]
  · simp [Kernel.init]

theorem Sound.same {k k' : Kernel ρ δ} (h : Sound s n k) (hs : Same (.semaphore s) k k') :
    Sound s n k' := by
  obtain ⟨S, hS, hcard⟩ := h.flying
  refine ⟨?_, ?_, S, ?_, ?_⟩
  · rw [hs.units_eq]
    exact h.nonneg
  · rw [hs.value s rfl, hs.units_eq]
    exact h.value_eq
  · intro t
    rw [hs.inFlight]
    exact hS t
  · rw [hs.queue, hs.units_eq]
    exact hcard

theorem Testing.pLoop {k k' : Kernel ρ δ} (h : Testing s n k) (hk' : k.pLoop s = .ok k') :
    Sound s n k' := by
  obtain ⟨S, hS, hcard⟩ := h.flying
  unfold Kernel.pLoop at hk'
  split at hk'
  · rename_i hzero
    simp only [sleep, assertThen_ok, Except.ok.injEq] at hk'
    obtain ⟨-, rfl⟩ := hk'
    refine ⟨h.nonneg, h.value_eq, S, ?_, fun _ => ?_⟩
    · intro t
      rw [hS t]
      unfold InFlight
      rw [inLoop_semaphore, inLoop_semaphore]
      have hmem := mem_insert_queue (k := k) (q := .semaphore s) (t := k.currentThread) (u := t)
      by_cases ht : t = k.currentThread
      · subst ht
        simp_all [h.outside]
      · simp_all
    · change units s n k.log ≤ S.card ∨ 2 ^ 32 ≤ units s n k.log
      have hsome := (h.value_eq.symm.trans hzero)
      have hnonneg := h.nonneg
      rw [Int.bmod_def] at hsome
      omega
  · rename_i hpos
    cases hk'
    have h0 := h.nonneg
    rw [h.value_eq, Int.bmod_def] at hpos
    refine ⟨?_, ?_, S, hS, ?_⟩ <;> simp only [note_log, units_pDone]
    · omega
    · simp only [note_value, Function.update_self]
      rw [h.value_eq, Int.bmod_sub_bmod]
    · intro hq
      have := hcard hq
      omega

theorem not_mem_of_issues {cl : Client ρ δ α} {k k₀ : Kernel ρ δ} {lab : Label α} {o : Call ρ}
    (hi : Issues cl k lab o k₀) (ht : k.Tidy) : .pRetest s ∉ k₀.stack k₀.currentThread := by
  cases hi with
  | own a o pc data hs hnext hpub => simp [hs]
  | inner o rest hs =>
      have hp := ht.above k.currentThread
      rw [hs, List.pairwise_cons] at hp
      simp only [setStack_stack, setStack_currentThread, Function.update_self]
      intro hmem
      have := hp.1 _ hmem
      simp [Above] at this

theorem Sound.semP {k k' : Kernel ρ δ} (h : Sound s n k)
    (hout : .pRetest s ∉ k.stack k.currentThread) (hk' : k.semP s = .ok k') : Sound s n k' := by
  have hsame : Same (.semaphore s) k (k.disable.push (.setLevel k.level)) :=
    (same_disable k).trans (same_push _ (by simp [Frame.about]))
  have h' := h.same hsame
  obtain ⟨S, hS, hcard⟩ := h'.flying
  have ht : Testing s n (k.disable.push (.setLevel k.level)) := by
    refine ⟨h'.nonneg, h'.value_eq, ⟨S, hS, ?_⟩, by simpa using hout⟩
    intro hq
    have := hcard hq
    omega
  exact ht.pLoop hk'

/-- The thread that has been woken leaves the set of those on their way. -/
theorem Sound.retest {k k' : Kernel ρ δ} {rest : List (Frame ρ)} (h : Sound s n k) (ht : k.Tidy)
    (hp : k.Placed) (hs : k.stack k.currentThread = .pRetest s :: rest)
    (hk' : (k.setStack rest).pLoop s = .ok k') : Sound s n k' := by
  have hawake : k.Awake := hp.awake_of_not_inSleep (by simp [InSleep, hs])
  have habove := ht.above k.currentThread
  rw [hs, List.pairwise_cons] at habove
  have hrest : .pRetest s ∉ rest := by
    intro hm
    have := habove.1 _ hm
    simp [Above] at this
  obtain ⟨S, hS, hcard⟩ := h.flying
  have hcur : k.currentThread ∈ S := by
    rw [hS, InFlight, inLoop_semaphore, mem_queue_iff hp, hawake.seat_current]
    simp [hs]
  have ht : Testing s n (k.setStack rest) := by
    refine ⟨h.nonneg, h.value_eq, ⟨S.erase k.currentThread, ?_, ?_⟩, by simpa using hrest⟩
    · intro t
      rw [Finset.mem_erase, hS t, InFlight, InFlight, inLoop_semaphore, inLoop_semaphore]
      by_cases htc : t = k.currentThread
      · subst htc
        simp [hrest]
      · simp [htc]
    · intro hq
      have := hcard hq
      rw [Finset.card_erase_of_mem hcur]
      have hpos := Finset.card_pos.2 ⟨_, hcur⟩
      simp only [setStack_log]
      omega
  exact ht.pLoop hk'

/-- `V` sends one thread on its way for the unit it adds, if one waits. -/
theorem Sound.vBody {k : Kernel ρ δ} (h : Sound s n k) (hp : k.Placed) :
    Sound s n (k.vBody s) := by
  obtain ⟨st, qu, hv⟩ := k.vBody_eq s
  obtain ⟨S, hS, hcard⟩ := h.flying
  have h0 := h.nonneg
  have hlog : units s n (k.vBody s).log = units s n k.log + 1 := by
    rw [hv]
    exact units_vDone s n k.log
  refine ⟨?_, ?_, ?_⟩
  · omega
  · rw [hlog, hv]
    simp only [Function.update_self]
    rw [h.value_eq, Int.bmod_add_bmod]
  · cases hes : k.queue (.semaphore s) with
    | nil =>
        have hq : (k.vBody s).queue (.semaphore s) = [] := by
          simp [Kernel.vBody, wakeOne, remove, hes]
        refine ⟨S, ?_, ?_⟩
        · intro t
          rw [hS t, InFlight, InFlight, inLoop_semaphore, inLoop_semaphore, hq, hes, hv]
        · rw [hq]
          exact fun hne => absurd rfl hne
    | cons e es =>
        have hq : (k.vBody s).queue (.semaphore s) = es := by
          simp [Kernel.vBody, wakeOne, remove, hes]
        have hloop : k.InLoop (.semaphore s) e.item :=
          inLoop_of_mem hp (by simp) (by simp [hes])
        have hnot : e.item ∉ S := by
          rw [hS, InFlight, hes]
          simp
        refine ⟨Insert.insert e.item S, ?_, ?_⟩
        · intro t
          rw [Finset.mem_insert, hS t, InFlight, InFlight, hq, hes, inLoop_semaphore,
            inLoop_semaphore, hv]
          by_cases hte : t = e.item
          · subst hte
            rw [inLoop_semaphore] at hloop
            simpa [hloop] using hp.seated.front_not_mem hes
          · simp [hte]
        · intro _
          have := hcard (by simp [hes])
          rw [Finset.card_insert_of_notMem hnot, hlog]
          push_cast
          omega

theorem Sound.foldl_vBody {k : Kernel ρ δ} (h : Sound s n k) (hp : k.Placed) (sems : List ℕ) :
    Sound s n (sems.foldl Kernel.vBody k) := by
  induction sems generalizing k with
  | nil => exact h
  | cons s' sems ih =>
      by_cases hs : s' = s
      · subst hs
        exact ih (h.vBody hp) (hp.vBody s')
      · exact ih (h.same (same_vBody k (by simp) (by simpa using Ne.symm hs))) (hp.vBody s')

theorem Sound.step {cl : Client ρ δ α} {k k' : Kernel ρ δ} {lab : Label α} (h : Sound s n k)
    (ht : k.Tidy) (hp : k.Placed) (hk' : Kernel.step cl k lab = .ok k') : Sound s n k' := by
  rcases step_object (x := .semaphore s) (by simp) ht hp hk' with
    hs | ⟨o, k₀, hi, ho, he⟩ | ⟨f, rest, hs, hf, hne, -, hr⟩ | ⟨a, s', hx, hh⟩
  · exact h.same hs
  · have h₀ : Sound s n k₀ := h.same hi.same
    have hp₀ := hi.awake hp
    cases o with
    | P s' =>
        obtain rfl : s' = s := by simpa [Call.about] using ho
        exact h₀.semP (not_mem_of_issues hi ht) he
    | V s' =>
        obtain rfl : s' = s := by simpa [Call.about] using ho
        cases he
        have hsame : Same (.semaphore s') k₀ (k₀.disable.push (.setLevel k₀.level)) :=
          (same_disable k₀).trans (same_push _ (by simp [Frame.about]))
        exact (h₀.same hsame).vBody (hp₀.disable.push (by simp)).toPlaced
    | _ => simp [Call.about] at ho
  · cases f with
    | pRetest s' =>
        obtain rfl : s' = s := by simpa [Frame.about] using hf
        cases lab with
        | go => exact h.retest ht hp hs hr
        | _ => cases hr
    | _ => simp [Frame.about] at hf
  · obtain ⟨sems, data, -, rfl⟩ := handle_eq hh
    have hd : Same (.semaphore s) k { k with data := data } := .of_eq rfl rfl rfl rfl rfl rfl
    have hp' : Placed { k with data := data } := hp.congr rfl rfl rfl rfl rfl fun _ => Iff.rfl
    exact (h.same hd).foldl_vBody hp' sems

end Semaphore

theorem Runs.semaphore {cl : Client ρ δ α} {start : ρ} {data : δ} {initialValue : ℕ → ℤ}
    {k : Kernel ρ δ} (h : Runs cl start data initialValue k) {s : ℕ} (hs : 0 ≤ initialValue s)
    (hmax : initialValue s ≤ intMax) : Semaphore.Sound s (initialValue s) k :=
  Reachable.invariant (I := Semaphore.Sound s (initialValue s))
    (.init start data initialValue hs hmax)
    (fun _ _ _ hk hi hs => hi.step (Runs.tidy hk) (Runs.placed hk) hs) h

/-- A semaphore that starts without units. -/
theorem Runs.semaphore_zero {cl : Client ρ δ α} {start : ρ} {data : δ} {initialValue : ℕ → ℤ}
    {k : Kernel ρ δ} (h : Runs cl start data initialValue k) {s : ℕ} (hs : initialValue s = 0) :
    Semaphore.Sound s 0 k :=
  hs ▸ h.semaphore hs.ge (hs ▸ by decide)

/-- The value is never negative and is the initial value with a unit added for
each `V` and taken for each `P`, and while a thread waits, the value is at most
the number of threads that `V` has removed from the queue and that have not
tested the value again: in the states in which that number of units is an `int`, and in
no others. -/
theorem semaphore_conserved_iff (cl : Client ρ δ α) (start : ρ) (data : δ)
    (initialValue : ℕ → ℤ) (k : Kernel ρ δ) (h : Runs cl start data initialValue k) (s : ℕ)
    (hs : 0 ≤ initialValue s) (hmax : initialValue s ≤ intMax) :
    {t | k.InFlight (.semaphore s) t}.Finite ∧
      ((0 ≤ k.value s ∧
          k.value s = initialValue s + completedV s k.log - completedP s k.log ∧
            (k.queue (.semaphore s) ≠ [] →
              k.value s ≤ {t | k.InFlight (.semaphore s) t}.ncard)) ↔
        initialValue s + completedV s k.log - completedP s k.log ≤ intMax) := by
  have hk := h.semaphore hs hmax
  obtain ⟨S, hS, hcard⟩ := hk.flying
  have hset : {t | k.InFlight (.semaphore s) t} = S := by
    ext t
    simp [hS t]
  have hnonneg := hk.nonneg
  have hvalue := hk.value_eq
  rw [Int.bmod_def] at hvalue
  rw [hset, Set.ncard_coe_finset]
  refine ⟨S.finite_toSet, ?_⟩
  change (0 ≤ k.value s ∧ k.value s = units s (initialValue s) k.log ∧ _) ↔
    units s (initialValue s) k.log ≤ intMax
  unfold intMax
  constructor
  · rintro ⟨-, hunits, -⟩
    omega
  · intro hint
    have hunits : k.value s = units s (initialValue s) k.log := by omega
    refine ⟨by omega, hunits, fun hq => ?_⟩
    have := hcard hq
    omega

/-- Two threads call `P`, and then the main thread calls `V`. -/
def oneUnit : Tid → ℕ → Option (Call ℕ)
  | 0, 0 => some (.fork 1 0 0)
  | 0, 1 => some (.fork 2 0 0)
  | 0, 2 => some .yield
  | 0, _ => some (.V 0)
  | _, _ => some (.P 0)

/-- One of the two threads waits, and the unit is there for the other one, which has been woken. -/
theorem semaphore_conserved_iff_woken :
    ∃ k, Runs (scripted oneUnit) 0 () (fun _ => 0) k ∧ k.value 0 = 1 ∧
      k.queue (.semaphore 0) ≠ [] ∧ 1 ≤ {t | k.InFlight (.semaphore 0) t}.ncard := by
  have hpass : passes (step (scripted oneUnit)) (init 0 () fun _ => 0)
      (turns [((), 3), ((), 3), ((), 3), ((), 4), ((), 5), ((), 3)])
      (fun k => k.value 0 = 1 && !(k.queue (.semaphore 0)).isEmpty && completedV 0 k.log = 1 &&
        completedP 0 k.log = 0) = true := by
    decide +kernel
  obtain ⟨k, hk, hend⟩ := exists_of_passes _ hpass
  simp only [Bool.and_eq_true, decide_eq_true_eq, Bool.not_eq_true', List.isEmpty_eq_false_iff]
    at hend
  obtain ⟨⟨⟨hvalue, hqueue⟩, hV⟩, hP⟩ := hend
  obtain ⟨-, hiff⟩ := semaphore_conserved_iff (scripted oneUnit) 0 () (fun _ => 0) k hk 0
    (by decide) (by decide)
  rw [hV, hP] at hiff
  obtain ⟨-, -, hflying⟩ := hiff.2 (by decide)
  have hbound := hflying hqueue
  rw [hvalue] at hbound
  exact ⟨k, hk, hvalue, hqueue, by exact_mod_cast hbound⟩

/-- `V` on a semaphore with the largest initial value makes it negative. -/
theorem semaphore_overflows :
    ∃ k, Runs (scripted fun _ _ => some (.V 0)) 0 () (fun _ => 2147483647) k ∧
      k.value 0 = -2147483648 ∧ completedV 0 k.log = 1 ∧ completedP 0 k.log = 0 ∧
        ¬ 0 ≤ k.value 0 := by
  have hpass : passes (step (scripted fun _ _ => some (.V 0))) (init 0 () fun _ => 2147483647)
      (turns [((), 3)]) (fun k => k.value 0 = -2147483648 && completedV 0 k.log = 1 &&
        completedP 0 k.log = 0) = true := by
    decide +kernel
  obtain ⟨k, hk, hend⟩ := exists_of_passes _ hpass
  simp only [Bool.and_eq_true, decide_eq_true_eq] at hend
  obtain ⟨⟨hvalue, hV⟩, hP⟩ := hend
  exact ⟨k, hk, hvalue, hV, hP, by rw [hvalue]; decide⟩

end Kernel

end Nachos
