import Nachos.Lib.Overtaking
import Nachos.Threads.Control

/-!
# How long a thread waits

A thread waits on the ready list, or on the queue of a semaphore, a lock or a condition. Every step
of the kernel lets threads leave a queue at the front and inserts others, so a waiting thread comes
one place nearer to the front with every thread that leaves, and is put back only by those with a
higher priority.
-/

namespace Nachos

open Lib

namespace Kernel

variable {ρ δ α : Type}

/-! ## Every step passes the queues -/

/-- Every queue has passed from its state in `k` to that in `k'`. -/
def Passing (k k' : Kernel ρ δ) : Prop := ∀ q, Passes (k.queue q) (k'.queue q)

theorem Passing.of_eq {k k' : Kernel ρ δ} (h : k'.queue = k.queue) : k.Passing k' := by
  intro q
  rw [h]
  exact .refl _

/-- Threads are taken from the queues of the objects to the ready list. -/
structure Wakes (k k' : Kernel ρ δ) : Prop where
  ready : ∃ new, k'.queue .readyList = insertAll new (k.queue .readyList)
  others : ∀ q, q ≠ .readyList → k'.queue q <:+ k.queue q

theorem Wakes.refl (k : Kernel ρ δ) : k.Wakes k := ⟨⟨[], rfl⟩, fun _ _ => List.suffix_rfl⟩

theorem Wakes.trans {k k₁ k₂ : Kernel ρ δ} (h : k.Wakes k₁) (h' : k₁.Wakes k₂) : k.Wakes k₂ := by
  obtain ⟨new, hnew⟩ := h.ready
  obtain ⟨new', hnew'⟩ := h'.ready
  refine ⟨⟨new ++ new', ?_⟩, fun q hq => (h'.others q hq).trans (h.others q hq)⟩
  rw [hnew', hnew, insertAll_append]

theorem Wakes.congr {k k₁ k₂ : Kernel ρ δ} (h : k.Wakes k₁) (hq : k₂.queue = k₁.queue) :
    k.Wakes k₂ := by
  refine ⟨?_, ?_⟩ <;> rw [hq]
  · exact h.ready
  · exact h.others

theorem Wakes.passing {k k' : Kernel ρ δ} (h : k.Wakes k') : k.Passing k' := by
  intro q
  by_cases hq : q = .readyList
  · subst hq
    obtain ⟨new, hnew⟩ := h.ready
    rw [hnew]
    exact passes_insertAll new _
  · exact .of_suffix (h.others q hq)

theorem wakes_front {k : Kernel ρ δ} {q : QueueId} (hne : q ≠ .readyList) {e : Keyed Tid}
    {es : List (Keyed Tid)} (hq : k.queue q = e :: es) :
    k.Wakes ((k.setQueue q es).readyToRun e.item) := by
  refine ⟨⟨[⟨e.item, negPriority (k.priority e.item)⟩], ?_⟩, fun r hr => ?_⟩
  · simp [hne.symm]
  · rw [readyToRun_queue, Function.update_of_ne hr, setQueue_queue]
    by_cases hrq : r = q
    · subst hrq
      rw [Function.update_self, hq]
      exact List.suffix_cons e es
    · simp [hrq]

theorem wakes_wakeOne (k : Kernel ρ δ) {q : QueueId} (hne : q ≠ .readyList) :
    k.Wakes (k.wakeOne q) := by
  unfold wakeOne remove
  cases hq : k.queue q with
  | nil => exact .refl k
  | cons e es => exact wakes_front hne hq

theorem wakes_foldl_vBody (k : Kernel ρ δ) (sems : List ℕ) : k.Wakes (sems.foldl vBody k) := by
  induction sems generalizing k with
  | nil => exact .refl k
  | cons s sems ih =>
      have hone : k.Wakes (k.vBody s) :=
        (k.wakes_wakeOne (q := .semaphore s) (by simp)).congr rfl
      exact hone.trans (ih (k.vBody s))

theorem wakes_signalOne (k : Kernel ρ δ) (c : Obj) : k.Wakes (k.signalOne c) := by
  unfold signalOne remove
  cases hq : k.queue (.condition c) with
  | nil => exact .refl k
  | cons e es => exact (wakes_front (q := .condition c) (by simp) hq).congr rfl

theorem wakes_broadcastLoop (k : Kernel ρ δ) (c : Obj) (n : ℕ) :
    k.Wakes (broadcastLoop c n k) := by
  induction n generalizing k with
  | zero => exact .refl k
  | succ n ih => exact (k.wakes_signalOne c).trans (ih (k.signalOne c))

theorem passing_insert (k : Kernel ρ δ) (q : QueueId) (t : Tid) : k.Passing (k.insert q t) := by
  intro r
  rw [insert_queue]
  by_cases hr : r = q
  · subst hr
    rw [Function.update_self]
    exact passes_insertAll [_] _
  · rw [Function.update_of_ne hr]
    exact .refl _

theorem sleep_queue {k k' : Kernel ρ δ} (h : k.sleep = .ok k') : k'.queue = k.queue := by
  simp only [sleep, assertThen_ok, Except.ok.injEq] at h
  obtain ⟨-, rfl⟩ := h
  rfl

theorem passing_pLoop {k k' : Kernel ρ δ} {s : ℕ} (h : k.pLoop s = .ok k') : k.Passing k' := by
  unfold pLoop at h
  split at h
  · intro q
    rw [sleep_queue h]
    exact k.passing_insert (.semaphore s) k.currentThread q
  · cases h
    exact .of_eq rfl

theorem passing_acquireLoop {k k' : Kernel ρ δ} {l : Obj} (h : k.acquireLoop l = .ok k') :
    k.Passing k' := by
  unfold acquireLoop at h
  split at h
  · intro q
    rw [sleep_queue h]
    exact k.passing_insert (.lock l) k.currentThread q
  · cases h
    exact .of_eq rfl

theorem Awake.notMem_readyList {k : Kernel ρ δ} (h : k.Awake) :
    k.currentThread ∉ (k.queue .readyList).map Keyed.item := by
  rw [h.seated.mem_iff, h.seat_current]
  simp

/-- The thread that yields goes to the ready list, and the front of this list is another one. -/
theorem Awake.passing_yield {k : Kernel ρ δ} (h : k.Awake) : k.Passing k.yield := by
  unfold Kernel.yield findNextToRun remove
  cases hes : k.disable.queue .readyList with
  | nil => exact .of_eq rfl
  | cons e es =>
      have hes : k.queue .readyList = e :: es := hes
      intro q
      by_cases hq : q = .readyList
      · subst hq
        have hne : k.currentThread ≠ e.item := by
          intro heq
          exact h.notMem_readyList (by simp [hes, heq])
        simpa [hes] using passes_rotate (q := es)
          (e := ⟨k.currentThread, negPriority (k.priority k.currentThread)⟩) hne
      · simpa [hq] using Passes.refl (k.queue q)

theorem Awake.passing_exec {k k' : Kernel ρ δ} {o : Call ρ} (h : k.Awake)
    (hk' : k.exec o = .ok k') : k.Passing k' := by
  cases o with
  | P s => exact passing_pLoop (k := k.disable.push (.setLevel k.level)) hk'
  | V s =>
      cases hk'
      exact (wakes_foldl_vBody (k.disable.push (.setLevel k.level)) [s]).passing
  | acquire l =>
      simp only [Kernel.exec, Kernel.acquire, assertThen_ok] at hk'
      exact passing_acquireLoop
        (k := (k.disable.push (.acquireReturn l)).push (.setLevel k.level)) hk'.2
  | release l =>
      simp only [Kernel.exec, Kernel.release, assertThen_ok, Except.ok.injEq] at hk'
      obtain ⟨-, rfl⟩ := hk'
      exact (wakes_wakeOne ((k.disable.push (.setLevel k.level)).note
        (.releaseCalled l k.currentThread)) (q := .lock l) (by simp)).passing
  | wait c l =>
      simp only [Kernel.exec, Kernel.wait, assertThen_ok, Except.ok.injEq] at hk'
      obtain ⟨-, rfl⟩ := hk'
      exact .of_eq rfl
  | signal c l =>
      simp only [Kernel.exec, Kernel.signal, assertThen_ok, Except.ok.injEq] at hk'
      obtain ⟨-, rfl⟩ := hk'
      exact (k.wakes_signalOne c).passing
  | broadcast c l =>
      simp only [Kernel.exec, Kernel.broadcast, assertThen_ok, Except.ok.injEq] at hk'
      obtain ⟨-, rfl⟩ := hk'
      exact (k.wakes_broadcastLoop c _).passing
  | yield =>
      cases hk'
      exact h.passing_yield
  | fork t join start =>
      simp only [Kernel.exec, Kernel.fork] at hk'
      split at hk'
      · cases hk'
        exact k.passing_insert .readyList t
      · cases hk'
  | join t =>
      simp only [Kernel.exec, Kernel.joinCall, assertThen_ok, Except.ok.injEq] at hk'
      obtain ⟨-, rfl⟩ := hk'
      exact .of_eq rfl
  | _ =>
      cases hk'
      exact .of_eq rfl

theorem passing_handle {cl : Client ρ δ α} {k k' : Kernel ρ δ} {a : α}
    (h : handle cl k a = .ok k') : k.Passing k' := by
  obtain ⟨sems, data, -, rfl⟩ := handle_eq h
  exact (wakes_foldl_vBody { k with data := data } sems).passing

theorem passing_resume {cl : Client ρ δ α} {k k' : Kernel ρ δ} {f : Frame ρ} {lab : Label α}
    (hcall : ∀ o, f ≠ .call o) (h : resume cl k f lab = .ok k') : k.Passing k' := by
  rcases resume_cases h with rfl | ⟨rfl, rfl, rfl⟩ | ⟨a, rfl, -, hh⟩
  · cases f with
    | call o => exact absurd rfl (hcall o)
    | setLevel now =>
        cases h
        unfold Kernel.setLevel
        split <;> exact .of_eq rfl
    | sleepLoop =>
        obtain ⟨e, es, hq, rfl⟩ := sleepLoop_go h
        intro q
        by_cases hr : q = .readyList
        · subst hr
          simpa [hq] using Passes.of_suffix (List.suffix_cons e es)
        · simpa [hr] using Passes.refl (k.queue q)
    | afterSwitch =>
        rcases afterSwitch_cases h with ⟨-, rfl⟩ | ⟨t, -, rfl⟩ <;> exact .of_eq rfl
    | pRetest s => exact passing_pLoop h
    | acquireRetest l => exact passing_acquireLoop h
    | waitEnqueue c l old =>
        intro q
        rw [sleep_queue h]
        exact k.passing_insert (.condition c) k.currentThread q
    | waitReturn c l =>
        simp only [resume, assertThen_ok, Except.ok.injEq] at h
        obtain ⟨-, rfl⟩ := h
        exact .of_eq rfl
    | finishLoop =>
        cases h
        unfold finishLoop
        split
        · exact .of_eq rfl
        · split <;> exact .of_eq rfl
    | finishDone =>
        simp only [resume, finishDone] at h
        have hq := sleep_queue h
        exact .of_eq hq
    | finished => cases h
    | _ =>
        cases h
        exact .of_eq rfl
  · exact .of_eq rfl
  · exact passing_handle (k := k.push f) hh

theorem Placed.passing_step {cl : Client ρ δ α} {k k' : Kernel ρ δ} {lab : Label α} (h : k.Placed)
    (hk' : Kernel.step cl k lab = .ok k') : k.Passing k' := by
  rcases step_cases hk' with ⟨o, k₀, hi, he⟩ | ⟨f, rest, -, hcall, hr⟩
  · have hp := (hi.awake h).passing_exec he
    cases hi <;> exact hp
  · exact passing_resume (k := k.setStack rest) hcall hr

/-! ## Bounded waiting -/

/-- In every reachable state the queues are sorted by the keys their threads came with. -/
theorem Runs.sortedKeys {cl : Client ρ δ α} {start : ρ} {data : δ} {initialValue : ℕ → ℤ}
    {k : Kernel ρ δ} (h : Runs cl start data initialValue k) (q : QueueId) :
    SortedKeys (k.queue q) := by
  refine Reachable.invariant (I := fun k => SortedKeys (k.queue q)) ?_ ?_ h
  · exact List.Pairwise.nil
  · intro k lab k' hk hsorted hs
    exact ((Runs.placed hk).passing_step hs q).sortedKeys hsorted

/-- The threads of a queue are among those that exist. -/
theorem Placed.length_queue_le {k : Kernel ρ δ} (h : k.Placed) (q : QueueId) :
    (k.queue q).length ≤ k.numThreads := by
  have hsub : (k.queue q).map Keyed.item ⊆ List.range k.numThreads := by
    intro t ht
    rw [List.mem_range]
    by_contra hlt
    have hnew := (h.created t).2 (not_lt.1 hlt)
    rw [h.seated.mem_iff] at ht
    simp [seat, hnew] at ht
  have hperm := List.subperm_of_subset (h.seated.nodup q) hsub
  simpa using hperm.length_le

/-- The thread `t` is still on the queue `q` after the step. -/
def StaysOn (cl : Client ρ δ α) (q : QueueId) (t : Tid) (k : Kernel ρ δ) (lab : Label α) : Prop :=
  ∀ k', step cl k lab = .ok k' → t ∈ (k'.queue q).map Keyed.item

/-- The number of threads that leave the queue `q` in a run. -/
def departures (cl : Client ρ δ α) (q : QueueId) : Kernel ρ δ → List (Label α) → ℕ :=
  tally (step cl) fun k k' => departed (k.queue q) (k'.queue q)

/-- The number of threads that are put on the queue `q` in a run ahead of the key `κ`. -/
def overtakings (cl : Client ρ δ α) (q : QueueId) (κ : ℤ) : Kernel ρ δ → List (Label α) → ℕ :=
  tally (step cl) fun k k' => overtaking κ (k.queue q) (k'.queue q)

/-- While a thread waits on a queue, the threads that leave it are those that were ahead, all but
those that still are, and those that have come with a higher priority. -/
theorem bounded_waiting (cl : Client ρ δ α) (start : ρ) (data : δ) (initialValue : ℕ → ℤ)
    {k k' : Kernel ρ δ} (hk : Runs cl start data initialValue k) {q : QueueId} {e : Keyed Tid}
    (he : e ∈ k.queue q) {labs : List (Label α)}
    (hstay : Meets (step cl) (StaysOn cl q e.item) k labs)
    (hk' : runFrom (step cl) k labs = .ok k') :
    departures cl q k labs + ahead e.item (k'.queue q) =
        ahead e.item (k.queue q) + overtakings cl q e.key k labs ∧
      ahead e.item (k.queue q) < k.numThreads := by
  refine ⟨?_, (ahead_lt he).trans_le (hk.placed.length_queue_le q)⟩
  refine @tally_balance _ _ _ (step cl) (StaysOn cl q e.item)
    (fun k => Runs cl start data initialValue k ∧ e ∈ k.queue q)
    (fun k => ahead e.item (k.queue q)) _ _ ?_ _ _ ⟨hk, he⟩ _ hstay hk'
  rintro k lab k' ⟨hk, he⟩ hon hs
  have hk' := hk.tail hs
  obtain ⟨he', hplace⟩ := (hk.placed.passing_step hs q).place (hk.sortedKeys q)
    (hk.placed.seated.nodup q) ((Runs.placed hk').seated.nodup q) he (hon k' hs)
  exact ⟨⟨hk', he'⟩, hplace⟩

/-- The main thread forks the threads 1 and 2, takes the priority 10 and yields. -/
def overtakes : Tid → ℕ → Option (Call ℕ)
  | 0, 0 => some (.fork 1 0 0)
  | 0, 1 => some (.fork 2 0 0)
  | 0, 2 => some (.setPriority 0 10)
  | 0, 3 => some .yield
  | _, _ => none

def forks : List (Label Unit) := [.act (), .go, .go, .go, .act (), .go, .go, .go]

/-- The state after both forks. -/
def forked : Kernel ℕ Unit :=
  match runFrom (step (scripted overtakes)) (init 0 () fun _ => 0) forks with
  | .ok k => k
  | .error _ => init 0 () fun _ => 0

/-- The thread 1 leaves the ready list, and the main thread overtakes the thread 2 there. -/
theorem bounded_waiting_overtaken :
    ∃ k', runFrom (step (scripted overtakes)) forked [.act (), .act ()] = .ok k' ∧
      k'.currentThread = 1 ∧
      departures (scripted overtakes) .readyList forked [.act (), .act ()] +
          ahead 2 (k'.queue .readyList) = 1 + 1 := by
  have hforked : Runs (scripted overtakes) 0 () (fun _ => 0) forked := ⟨forks, rfl⟩
  have hahead : ahead 2 (forked.queue .readyList) = 1 := by decide
  have hover : overtakings (scripted overtakes) .readyList 0 forked [.act (), .act ()] = 1 := by
    decide +kernel
  have hpass : passesMeeting (step (scripted overtakes))
      (fun k lab => match step (scripted overtakes) k lab with
        | .ok k' => (k'.queue .readyList).any fun d => d.item = 2
        | .error _ => true)
      (fun k' => k'.currentThread = 1) forked [.act (), .act ()] = true := by
    decide +kernel
  obtain ⟨hmeets, k', hk', hcur⟩ := of_passesMeeting hpass
  have hstay := hmeets.imp (Q := StaysOn (scripted overtakes) .readyList 2) fun k lab h k' hs => by
    simp only [hs, List.any_eq_true, decide_eq_true_eq] at h
    exact List.mem_map.2 h
  have hwait := (bounded_waiting (scripted overtakes) 0 () (fun _ => 0) hforked
    (e := ⟨2, 0⟩) (by decide) hstay hk').1
  exact ⟨k', hk', of_decide_eq_true hcur, hwait.trans (by rw [hahead, hover])⟩

end Kernel

end Nachos
