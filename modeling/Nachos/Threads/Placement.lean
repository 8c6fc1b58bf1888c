import Nachos.Threads.Kernel

/-!
# Where the threads are

The seat of a thread is the queue it has to be on: the ready list when its
status is `READY`, the queue of the object it sleeps on when it is `BLOCKED`, and
none when it runs. The object a thread sleeps on is read off the frame under the
loop of `Thread::Sleep`. `Placed` says that the queues agree with the seats, and
it is kept by every routine of the kernel, hence by every step of every program.
-/

namespace Nachos

open Lib



/-- The queue a thread stands on while `Thread::Sleep` is to return into `f`. -/
def Frame.home {ρ : Type} : Frame ρ → Option QueueId
  | .pRetest s => some (.semaphore s)
  | .acquireRetest l => some (.lock l)
  | .waitWoken c _ _ => some (.condition c)
  | _ => none

/-- The queue of a sleeping thread: the topmost frame is the loop of
`Thread::Sleep` or the end of `Scheduler::Run`. -/
def home {ρ : Type} : List (Frame ρ) → Option QueueId
  | _ :: f :: _ => f.home
  | _ => none

namespace Kernel

variable {ρ δ α : Type}

def seat (k : Kernel ρ δ) (t : Tid) : Option QueueId :=
  match k.status t with
  | .ready => some .readyList
  | .blocked => home (k.stack t)
  | .running => none
  | .justCreated => none

/-- The current thread is in the loop of `Thread::Sleep`. -/
def InSleep (k : Kernel ρ δ) : Prop :=
  ∃ rest, k.stack k.currentThread = .sleepLoop :: rest

/-- A sleeping thread that nobody can wake has completed `Finish`. -/
def Homeless (k : Kernel ρ δ) (t : Tid) : Prop :=
  k.status t = .blocked ∧ home (k.stack t) = none

structure Placed (k : Kernel ρ δ) : Prop where
  seated : Seated k.queue k.seat
  running : ∀ t, k.status t = .running → t = k.currentThread
  created : ∀ t, k.status t = .justCreated ↔ k.numThreads ≤ t
  resting : ∀ t, t ≠ k.currentThread → Frame.sleepLoop ∉ k.stack t
  current : (k.status k.currentThread = .running ∧ Frame.sleepLoop ∉ k.stack k.currentThread) ∨
    ∃ rest, k.stack k.currentThread = .sleepLoop :: rest ∧ Frame.sleepLoop ∉ rest ∧
      (k.status k.currentThread = .blocked ∨ k.status k.currentThread = .ready)
  finished : ∀ t, k.Homeless t ↔ Event.finishCompleted t ∈ k.log

/-- The current thread runs, outside the loop of `Thread::Sleep`. -/
structure Awake (k : Kernel ρ δ) : Prop extends Placed k where
  awake : k.status k.currentThread = .running

theorem seat_eq_of_status {k k' : Kernel ρ δ} {t : Tid} (hst : k'.status t = k.status t)
    (hstack : k.status t = .blocked → k'.stack t = k.stack t) : k'.seat t = k.seat t := by
  unfold seat
  rw [hst]
  cases h : k.status t with
  | blocked => simp [hstack h]
  | ready => rfl
  | running => rfl
  | justCreated => rfl

theorem Awake.not_sleepLoop {k : Kernel ρ δ} (h : k.Awake) (t : Tid) :
    Frame.sleepLoop ∉ k.stack t := by
  by_cases ht : t = k.currentThread
  · subst ht
    rcases h.current with ⟨_, hns⟩ | ⟨rest, _, _, hb | hb⟩
    · exact hns
    · rw [h.awake] at hb
      cases hb
    · rw [h.awake] at hb
      cases hb
  · exact h.resting t ht

theorem Awake.seat_current {k : Kernel ρ δ} (h : k.Awake) : k.seat k.currentThread = none := by
  simp [seat, h.awake]

theorem Placed.current_lt {k : Kernel ρ δ} (h : k.Placed) : k.currentThread < k.numThreads := by
  by_contra hlt
  have := (h.created k.currentThread).2 (not_lt.1 hlt)
  rcases h.current with ⟨hr, _⟩ | ⟨_, _, _, hb | hb⟩ <;> simp_all

theorem Placed.awake_of_not_inSleep {k : Kernel ρ δ} (h : k.Placed) (hs : ¬ k.InSleep) :
    k.Awake := by
  refine ⟨h, ?_⟩
  rcases h.current with ⟨hr, _⟩ | ⟨rest, hrest, _⟩
  · exact hr
  · exact absurd ⟨rest, hrest⟩ hs

/-- The placement reads only the queues, the stacks, the statuses, the current
thread and which threads exist and are finished. -/
theorem Placed.congr {k k' : Kernel ρ δ} (h : k.Placed) (hq : k'.queue = k.queue)
    (hst : k'.status = k.status) (hstack : k'.stack = k.stack)
    (hcur : k'.currentThread = k.currentThread) (hnum : k'.numThreads = k.numThreads)
    (hlog : ∀ t, Event.finishCompleted t ∈ k'.log ↔ Event.finishCompleted t ∈ k.log) :
    k'.Placed := by
  have hseat : k'.seat = k.seat := by
    funext t
    exact seat_eq_of_status (by rw [hst]) (fun _ => by rw [hstack])
  refine ⟨?_, ?_, ?_, ?_, ?_, ?_⟩
  · rw [hq, hseat]
    exact h.seated
  · rw [hst, hcur]
    exact h.running
  · rw [hst, hnum]
    exact h.created
  · rw [hcur, hstack]
    exact h.resting
  · rw [hst, hcur, hstack]
    exact h.current
  · intro t
    rw [hlog, ← h.finished t]
    simp only [Homeless, hst, hstack]

theorem Awake.congr {k k' : Kernel ρ δ} (h : k.Awake) (hq : k'.queue = k.queue)
    (hst : k'.status = k.status) (hstack : k'.stack = k.stack)
    (hcur : k'.currentThread = k.currentThread) (hnum : k'.numThreads = k.numThreads)
    (hlog : ∀ t, Event.finishCompleted t ∈ k'.log ↔ Event.finishCompleted t ∈ k.log) :
    k'.Awake := by
  refine ⟨h.toPlaced.congr hq hst hstack hcur hnum hlog, ?_⟩
  rw [hst, hcur]
  exact h.awake

/-- The stack of the running thread may change in any way that does not put it
into the loop of `Thread::Sleep`. -/
theorem Awake.setStack {k : Kernel ρ δ} (h : k.Awake) (fs : List (Frame ρ))
    (hfs : Frame.sleepLoop ∉ fs) : (k.setStack fs).Awake := by
  have hother : ∀ t, k.status t = .blocked → (k.setStack fs).stack t = k.stack t := by
    intro t ht
    refine Function.update_of_ne ?_ _ _
    rintro rfl
    rw [h.awake] at ht
    cases ht
  refine ⟨⟨?_, h.running, h.created, ?_, .inl ⟨h.awake, by simpa using hfs⟩, ?_⟩, h.awake⟩
  · have hseat : (k.setStack fs).seat = k.seat := by
      funext t
      exact seat_eq_of_status rfl (hother t)
    rw [hseat]
    exact h.seated
  · intro t ht
    have ht' : t ≠ k.currentThread := ht
    simpa [ht'] using h.resting t ht
  · intro t
    rw [show (k.setStack fs).log = k.log from rfl, ← h.finished t]
    unfold Homeless
    exact and_congr_right fun hb => by rw [hother t hb]

theorem Awake.push {k : Kernel ρ δ} (h : k.Awake) {f : Frame ρ} (hf : f ≠ .sleepLoop) :
    (k.push f).Awake :=
  h.setStack _ (by simp [hf.symm, h.not_sleepLoop])

theorem Awake.pop {k : Kernel ρ δ} (h : k.Awake) {f : Frame ρ} {rest : List (Frame ρ)}
    (hs : k.stack k.currentThread = f :: rest) : (k.setStack rest).Awake := by
  refine h.setStack rest ?_
  have := h.not_sleepLoop k.currentThread
  rw [hs] at this
  exact fun hmem => this (List.mem_cons_of_mem f hmem)

theorem Awake.note {k : Kernel ρ δ} (h : k.Awake) {e : Event}
    (he : ∀ t, e ≠ .finishCompleted t) : (k.note e).Awake := by
  refine h.congr rfl rfl rfl rfl rfl ?_
  intro t
  simp [(he t).symm]

theorem Awake.disable {k : Kernel ρ δ} (h : k.Awake) : k.disable.Awake :=
  h.congr rfl rfl rfl rfl rfl fun _ => Iff.rfl

/-! ## Waking a thread -/

/-- The front of a queue other than the ready list is put on the ready list. -/
theorem Placed.wake {k : Kernel ρ δ} (h : k.Placed) {q : QueueId} (hq : q ≠ .readyList)
    {e : Keyed Tid} {es : List (Keyed Tid)} (hes : k.queue q = e :: es) :
    ((k.setQueue q es).readyToRun e.item).Placed := by
  have hseat : k.seat e.item = some q := h.seated.front hes
  have hst : k.status e.item = .blocked := by
    unfold seat at hseat
    cases hst : k.status e.item with
    | blocked => rfl
    | ready => simp [hst, hq.symm] at hseat
    | running => simp [hst] at hseat
    | justCreated => simp [hst] at hseat
  refine ⟨?_, ?_, ?_, h.resting, ?_, ?_⟩
  · have hseat' : ((k.setQueue q es).readyToRun e.item).seat =
        Function.update (Function.update k.seat e.item none) e.item (some .readyList) := by
      funext t
      by_cases ht : t = e.item
      · subst ht
        simp [seat]
      · simp [seat, ht]
    rw [hseat']
    exact (h.seated.leave hes).sit (e := ⟨e.item, _⟩) (by simp) .readyList
  · intro t ht
    by_cases hte : t = e.item
    · subst hte
      simp at ht
    · exact h.running t (by simpa [hte] using ht)
  · intro t
    rw [← show _ ↔ ((k.setQueue q es).readyToRun e.item).numThreads ≤ t from h.created t]
    by_cases hte : t = e.item
    · subst hte
      simp [hst]
    · simp [hte]
  · by_cases hte : k.currentThread = e.item
    · rcases h.current with ⟨hr, _⟩ | ⟨rest, hrest, hns, _⟩
      · rw [hte, hst] at hr
        cases hr
      · exact .inr ⟨rest, hrest, hns, .inr (by simp [hte])⟩
    · simpa [hte] using h.current
  · intro t
    rw [← show _ ↔ Event.finishCompleted t ∈ ((k.setQueue q es).readyToRun e.item).log
      from h.finished t]
    unfold Homeless
    by_cases hte : t = e.item
    · subst hte
      have hhome : home (k.stack e.item) = some q := by simpa [seat, hst] using hseat
      simp [hhome]
    · simp [hte]

theorem Placed.wakeOne {k : Kernel ρ δ} (h : k.Placed) {q : QueueId} (hq : q ≠ .readyList) :
    (k.wakeOne q).Placed := by
  unfold Kernel.wakeOne Kernel.remove
  cases hes : k.queue q with
  | nil => exact h
  | cons e es => exact h.wake hq hes

/-- A thread that runs is not on a queue, so waking does not change its status. -/
theorem Awake.ne_of_front {k : Kernel ρ δ} (h : k.Awake) {q : QueueId} {e : Keyed Tid}
    {es : List (Keyed Tid)} (hes : k.queue q = e :: es) : k.currentThread ≠ e.item := by
  intro heq
  have := h.seated.front hes
  rw [← heq, h.seat_current] at this
  cases this

theorem Awake.wake {k : Kernel ρ δ} (h : k.Awake) {q : QueueId} (hq : q ≠ .readyList)
    {e : Keyed Tid} {es : List (Keyed Tid)} (hes : k.queue q = e :: es) :
    ((k.setQueue q es).readyToRun e.item).Awake := by
  refine ⟨h.toPlaced.wake hq hes, ?_⟩
  simp [h.ne_of_front hes, h.awake]

theorem Awake.wakeOne {k : Kernel ρ δ} (h : k.Awake) {q : QueueId} (hq : q ≠ .readyList) :
    (k.wakeOne q).Awake := by
  unfold Kernel.wakeOne Kernel.remove
  cases hes : k.queue q with
  | nil => exact h
  | cons e es => exact h.wake hq hes

/-! ## Going to sleep -/

/-- The running thread goes to sleep, to return into `f`: its seat is the home of
`f`, and it is finished when `f` has no home. -/
theorem Awake.fallAsleep {k k' : Kernel ρ δ} {f : Frame ρ} (h : k.Awake) (hf : f ≠ .sleepLoop)
    (hst : k'.status = Function.update k.status k.currentThread .blocked)
    (hstack : k'.stack = Function.update k.stack k.currentThread
      (.sleepLoop :: f :: k.stack k.currentThread))
    (hcur : k'.currentThread = k.currentThread) (hnum : k'.numThreads = k.numThreads)
    (hlog : ∀ t, Event.finishCompleted t ∈ k'.log ↔
      (t = k.currentThread ∧ f.home = none) ∨ Event.finishCompleted t ∈ k.log)
    (hseated : Seated k'.queue (Function.update k.seat k.currentThread f.home)) :
    k'.Placed := by
  refine ⟨?_, ?_, ?_, ?_, .inr ⟨f :: k.stack k.currentThread, ?_, ?_, .inl ?_⟩, ?_⟩
  · have hseat : k'.seat = Function.update k.seat k.currentThread f.home := by
      funext t
      by_cases ht : t = k.currentThread
      · subst ht
        simp [seat, hst, hstack, home]
      · simp [seat, hst, hstack, ht]
    rw [hseat]
    exact hseated
  · intro t ht
    rw [hcur]
    by_cases htc : t = k.currentThread
    · exact htc
    · exact h.running t (by simpa [hst, htc] using ht)
  · intro t
    rw [hnum, ← h.created t, hst]
    by_cases htc : t = k.currentThread
    · subst htc
      simp [h.awake]
    · simp [htc]
  · intro t ht
    rw [hcur] at ht
    simpa [hstack, ht] using h.resting t ht
  · simp [hcur, hstack]
  · simp [hf.symm, h.not_sleepLoop]
  · simp [hcur, hst]
  · intro t
    rw [hlog, ← h.finished t]
    unfold Homeless
    by_cases htc : t = k.currentThread
    · subst htc
      simp [hst, hstack, home, h.awake]
    · simp [hst, hstack, htc]

/-- The running thread has put itself on the queue `q` and goes to sleep there. -/
theorem Awake.sleepOn {k k' : Kernel ρ δ} (h : k.Awake) {q : QueueId} {f : Frame ρ}
    (hf : f.home = some q)
    (hk' : ((k.insert q k.currentThread).push f).sleep = .ok k') : k'.Placed := by
  simp only [sleep, assertThen_ok, Except.ok.injEq] at hk'
  obtain ⟨-, rfl⟩ := hk'
  refine h.fallAsleep (f := f) ?_ rfl ?_ rfl rfl ?_ ?_
  · rintro rfl
    cases hf
  · simp
  · simp [hf]
  · rw [hf]
    exact h.seated.sit (e := ⟨k.currentThread, _⟩) h.seat_current q

/-- The end of `Finish`: the thread sleeps on no queue. -/
theorem Awake.finishDone {k k' : Kernel ρ δ} (h : k.Awake) (hk' : k.finishDone = .ok k') :
    k'.Placed := by
  simp only [Kernel.finishDone, sleep, assertThen_ok, Except.ok.injEq] at hk'
  obtain ⟨-, rfl⟩ := hk'
  refine h.fallAsleep (f := .finished) (by simp) rfl ?_ rfl rfl ?_ ?_
  · simp
  · simp [Frame.home]
  · rw [show Function.update k.seat k.currentThread (Frame.finished (ρ := ρ)).home = k.seat from
      Function.update_eq_iff.2 ⟨h.seat_current.symm, fun _ _ => rfl⟩]
    exact h.seated

/-! ## Switching -/

theorem home_eq_of_tail {f g : Frame ρ} (fs : List (Frame ρ)) :
    home (f :: fs) = home (g :: fs) := by
  cases fs <;> rfl

theorem Placed.ready_of_front {k : Kernel ρ δ} (h : k.Placed) {e : Keyed Tid}
    {es : List (Keyed Tid)} (hes : k.queue .readyList = e :: es) : k.status e.item = .ready := by
  have hseat := h.seated.front hes
  unfold seat at hseat
  cases hst : k.status e.item with
  | ready => rfl
  | blocked =>
      simp only [hst] at hseat
      match hk : k.stack e.item, hseat with
      | _ :: f :: _, hseat => cases f <;> simp [home, Frame.home] at hseat
  | running => simp [hst] at hseat
  | justCreated => simp [hst] at hseat

/-- The loop of `Thread::Sleep` finds a ready thread, possibly the sleeper itself
when a handler has woken it, and switches to it. -/
theorem Placed.switch {k : Kernel ρ δ} (h : k.Placed) {rest : List (Frame ρ)}
    (hs : k.stack k.currentThread = .sleepLoop :: rest) {e : Keyed Tid} {es : List (Keyed Tid)}
    (hes : k.queue .readyList = e :: es) :
    (((k.setStack rest).setQueue .readyList es).run e.item).Awake := by
  obtain ⟨hns, hst⟩ : Frame.sleepLoop ∉ rest ∧ k.status k.currentThread ≠ .running := by
    rcases h.current with ⟨_, hn⟩ | ⟨rest', hr', hn, hst⟩
    · simp [hs] at hn
    · rw [hs] at hr'
      cases hr'
      exact ⟨hn, by rcases hst with hb | hb <;> simp [hb]⟩
  have hready := h.ready_of_front hes
  set k' := ((k.setStack rest).setQueue .readyList es).run e.item with hk'
  have hstack : k'.stack = Function.update k.stack k.currentThread (.afterSwitch :: rest) := by
    simp [hk']
  have hstatus : k'.status = Function.update k.status e.item .running := rfl
  have hhome : ∀ t, home (k'.stack t) = home (k.stack t) := by
    intro t
    by_cases ht : t = k.currentThread
    · subst ht
      simpa [hstack, hs] using home_eq_of_tail rest
    · simp [hstack, ht]
  have hns' : ∀ t, Frame.sleepLoop ∉ k'.stack t := by
    intro t
    by_cases ht : t = k.currentThread
    · subst ht
      simpa [hstack] using hns
    · simpa [hstack, ht] using h.resting t ht
  refine ⟨⟨?_, ?_, ?_, fun t _ => hns' t, .inl ⟨?_, hns' _⟩, ?_⟩, ?_⟩
  · have hseat : k'.seat = Function.update k.seat e.item none := by
      funext t
      by_cases ht : t = e.item
      · subst ht
        simp [seat, hstatus]
      · simp [seat, hstatus, ht, hhome]
    rw [hseat]
    exact h.seated.leave hes
  · intro t ht
    by_cases hte : t = e.item
    · exact hte
    · have hr : k.status t = .running := by simpa [hstatus, hte] using ht
      exact absurd (h.running t hr ▸ hr) hst
  · intro t
    rw [show k'.numThreads = k.numThreads from rfl, ← h.created t, hstatus]
    by_cases hte : t = e.item
    · simp [hte, hready]
    · simp [hte]
  · simp [hk']
  · intro t
    rw [show k'.log = k.log from rfl, ← h.finished t]
    unfold Homeless
    by_cases hte : t = e.item
    · simp [hte, hready, hstatus]
    · simp [hte, hstatus, hhome]
  · simp [hk']

/-- `Yield` puts the running thread on the ready list and switches. -/
theorem Awake.switch {k : Kernel ρ δ} (h : k.Awake) {e : Keyed Tid} {es : List (Keyed Tid)}
    (hes : k.queue .readyList = e :: es) :
    (((k.setQueue .readyList es).readyToRun k.currentThread).run e.item).Awake := by
  have hne : k.currentThread ≠ e.item := h.ne_of_front hes
  have hready := h.ready_of_front hes
  set k' := ((k.setQueue .readyList es).readyToRun k.currentThread).run e.item with hk'
  have hstack : k'.stack = Function.update k.stack k.currentThread
      (.afterSwitch :: k.stack k.currentThread) := rfl
  have hstatus : k'.status = Function.update (Function.update k.status k.currentThread .ready)
      e.item .running := rfl
  have hns' : ∀ t, Frame.sleepLoop ∉ k'.stack t := by
    intro t
    by_cases ht : t = k.currentThread
    · subst ht
      simpa [hstack] using h.not_sleepLoop k.currentThread
    · simpa [hstack, ht] using h.not_sleepLoop t
  refine ⟨⟨?_, ?_, ?_, fun t _ => hns' t, .inl ⟨?_, hns' _⟩, ?_⟩, ?_⟩
  · have hseat : k'.seat = Function.update (Function.update k.seat e.item none) k.currentThread
        (some .readyList) := by
      funext t
      by_cases ht : t = e.item
      · subst ht
        simp [seat, hstatus, hne.symm]
      · by_cases htc : t = k.currentThread
        · subst htc
          simp [seat, hstatus, ht]
        · simp [seat, hstatus, ht, htc, hstack]
    rw [hseat]
    have hnone : Function.update k.seat e.item none k.currentThread = none := by
      rw [Function.update_of_ne hne]
      exact h.seat_current
    exact (h.seated.leave hes).sit (e := ⟨k.currentThread, _⟩) hnone .readyList
  · intro t ht
    by_cases hte : t = e.item
    · exact hte
    · by_cases htc : t = k.currentThread
      · simp [hstatus, htc, hne] at ht
      · exact absurd (h.running t (by simpa [hstatus, hte, htc] using ht)) htc
  · intro t
    rw [show k'.numThreads = k.numThreads from rfl, ← h.created t, hstatus]
    by_cases hte : t = e.item
    · simp [hte, hready]
    · by_cases htc : t = k.currentThread
      · simp [htc, hne, h.awake]
      · simp [hte, htc]
  · simp [hk']
  · intro t
    rw [show k'.log = k.log from rfl, ← h.finished t]
    unfold Homeless
    by_cases hte : t = e.item
    · simp [hte, hready, hstatus]
    · by_cases htc : t = k.currentThread
      · simp [htc, hne, hstatus, h.awake]
      · simp [hte, htc, hstatus, hstack]
  · simp [hk']

/-! ## Every routine keeps the placement -/

theorem Awake.pLoop {k k' : Kernel ρ δ} {s : ℕ} (h : k.Awake) (hk' : k.pLoop s = .ok k') :
    k'.Placed := by
  unfold Kernel.pLoop at hk'
  split at hk'
  · exact h.sleepOn rfl hk'
  · cases hk'
    exact h.toPlaced.congr rfl rfl rfl rfl rfl (by simp)

theorem Placed.vBody {k : Kernel ρ δ} (h : k.Placed) (s : ℕ) : (k.vBody s).Placed :=
  (h.wakeOne (q := .semaphore s) (by simp)).congr rfl rfl rfl rfl rfl (by simp [Kernel.vBody])

theorem Awake.vBody {k : Kernel ρ δ} (h : k.Awake) (s : ℕ) : (k.vBody s).Awake :=
  (h.wakeOne (q := .semaphore s) (by simp)).congr rfl rfl rfl rfl rfl (by simp [Kernel.vBody])

theorem Placed.foldl_vBody {k : Kernel ρ δ} (h : k.Placed) (sems : List ℕ) :
    (sems.foldl Kernel.vBody k).Placed := by
  induction sems generalizing k with
  | nil => exact h
  | cons s sems ih => exact ih (h.vBody s)

theorem Awake.acquireLoop {k k' : Kernel ρ δ} {l : Obj} (h : k.Awake)
    (hk' : k.acquireLoop l = .ok k') : k'.Placed := by
  unfold Kernel.acquireLoop at hk'
  split at hk'
  · exact h.sleepOn rfl hk'
  · cases hk'
    exact h.toPlaced.congr rfl rfl rfl rfl rfl (by simp)

theorem Awake.release {k k' : Kernel ρ δ} {l : Obj} (h : k.Awake)
    (hk' : k.release l = .ok k') : k'.Placed := by
  simp only [Kernel.release, assertThen_ok, Except.ok.injEq] at hk'
  obtain ⟨-, rfl⟩ := hk'
  have h' := ((h.disable.push (f := .setLevel k.level) (by simp)).note
    (e := .releaseCalled l k.currentThread) (by simp)).wakeOne (q := .lock l) (by simp)
  exact h'.toPlaced.congr rfl rfl rfl rfl rfl (by simp)

theorem Awake.signalOne {k : Kernel ρ δ} (h : k.Awake) (c : Obj) : (k.signalOne c).Awake := by
  unfold Kernel.signalOne Kernel.remove
  cases hes : k.queue (.condition c) with
  | nil => exact h
  | cons e es => exact (h.wake (by simp) hes).note (by simp)

theorem Awake.broadcastLoop {k : Kernel ρ δ} (h : k.Awake) (c : Obj) (n : ℕ) :
    (broadcastLoop c n k).Awake := by
  induction n generalizing k with
  | zero => exact h
  | succ n ih => exact ih (h.signalOne c)

theorem Awake.yield {k : Kernel ρ δ} (h : k.Awake) : k.yield.Awake := by
  unfold Kernel.yield findNextToRun remove
  cases hes : k.disable.queue .readyList with
  | nil => exact h.disable.push (by simp)
  | cons e es =>
      exact (h.disable.push (f := .setLevel k.level) (by simp)).switch hes

/-- A new thread sits down on the ready list. -/
theorem Awake.fork {k k' : Kernel ρ δ} {t : Tid} {join : ℤ} {start : ρ} (h : k.Awake)
    (hk' : k.fork t join start = .ok k') : k'.Placed := by
  unfold Kernel.fork at hk'
  split at hk'
  · rename_i hnum
    cases hk'
    have hnew : k.status t = .justCreated := (h.created t).2 hnum.ge
    have hne : t ≠ k.currentThread := by
      rintro rfl
      rw [h.awake] at hnew
      cases hnew
    have hold : ∀ u, u ≠ t → (k.numThreads + 1 ≤ u ↔ k.numThreads ≤ u) := by
      intro u hu
      rw [Nat.succ_le_iff, lt_iff_le_and_ne]
      simp [← hnum, hu.symm]
    refine ⟨?_, ?_, ?_, ?_, .inl ⟨?_, ?_⟩, ?_⟩
    · have hnone : k.seat t = none := by simp [seat, hnew]
      refine (congrArg (Seated _) ?_).mpr (h.seated.sit (e := ⟨t, _⟩) hnone .readyList)
      funext u
      by_cases hut : u = t
      · subst hut
        simp [seat]
      · by_cases huc : u = k.currentThread
        · subst huc
          simp [seat, hut, h.awake]
        · simp [seat, hut, huc]
    · intro u hu
      by_cases hut : u = t
      · simp [hut] at hu
      · exact h.running u (by simpa [hut] using hu)
    · intro u
      by_cases hut : u = t
      · simp [hut, hnum]
      · simpa [hut, hold u hut] using h.created u
    · intro u hu
      have huc : u ≠ k.currentThread := hu
      by_cases hut : u = t
      · subst hut
        simp [huc]
      · simpa [hut, huc] using h.resting u hu
    · simp [hne.symm, h.awake]
    · simpa [hne.symm] using h.not_sleepLoop k.currentThread
    · intro u
      simp only [Homeless]
      by_cases hut : u = t
      · subst hut
        have := h.finished u
        simp [Homeless, hnew] at this
        simp [this]
      · have := h.finished u
        simp only [Homeless] at this
        by_cases huc : u = k.currentThread
        · subst huc
          simpa [hut, h.awake] using this
        · simpa [hut, huc] using this
  · cases hk'

theorem Awake.afterSwitch {k k' : Kernel ρ δ} (h : k.Awake) (hk' : k.afterSwitch = .ok k') :
    k'.Placed := by
  rcases afterSwitch_cases hk' with ⟨-, rfl⟩ | ⟨t, -, rfl⟩
  · exact h.toPlaced
  · exact h.toPlaced.congr rfl rfl rfl rfl rfl fun _ => Iff.rfl

theorem Awake.setLevel {k : Kernel ρ δ} (h : k.Awake) (now : IntStatus) :
    (k.setLevel now).Awake := by
  have h' : Awake { k with level := now } := h.congr rfl rfl rfl rfl rfl fun _ => Iff.rfl
  unfold Kernel.setLevel
  split
  · exact h'.push (by simp)
  · exact h'

theorem Awake.finishLoop {k : Kernel ρ δ} (h : k.Awake) : k.finishLoop.Awake := by
  unfold Kernel.finishLoop
  split
  · exact (((h.push (by simp)).push (by simp)).push (by simp)).push (by simp)
  · split
    · exact (((h.push (by simp)).push (by simp)).push (by simp)).push (by simp)
    · exact ((h.push (by simp)).push (by simp)).push (by simp)

theorem Awake.exec {k k' : Kernel ρ δ} {o : Call ρ} (h : k.Awake) (hk' : k.exec o = .ok k') :
    k'.Placed := by
  cases o with
  | P s => exact (h.disable.push (f := .setLevel k.level) (by simp)).pLoop hk'
  | V s =>
      cases hk'
      exact ((h.disable.push (f := .setLevel k.level) (by simp)).vBody s).toPlaced
  | acquire l =>
      simp only [Kernel.exec, Kernel.acquire, assertThen_ok] at hk'
      exact ((h.disable.push (f := .acquireReturn l) (by simp)).push
        (f := .setLevel k.level) (by simp)).acquireLoop hk'.2
  | release l => exact h.release hk'
  | wait c l =>
      simp only [Kernel.exec, Kernel.wait, assertThen_ok, Except.ok.injEq] at hk'
      obtain ⟨-, rfl⟩ := hk'
      exact (((h.disable.push (by simp)).push (by simp)).note (by simp)).toPlaced
  | signal c l =>
      simp only [Kernel.exec, Kernel.signal, assertThen_ok, Except.ok.injEq] at hk'
      obtain ⟨-, rfl⟩ := hk'
      exact (h.signalOne c).toPlaced
  | broadcast c l =>
      simp only [Kernel.exec, Kernel.broadcast, assertThen_ok, Except.ok.injEq] at hk'
      obtain ⟨-, rfl⟩ := hk'
      exact (h.broadcastLoop c _).toPlaced
  | yield =>
      cases hk'
      exact h.yield.toPlaced
  | fork t join start => exact h.fork hk'
  | finish =>
      cases hk'
      exact (((h.disable.push (by simp)).push (by simp)).note (by simp)).toPlaced
  | join t =>
      simp only [Kernel.exec, Kernel.joinCall, assertThen_ok, Except.ok.injEq] at hk'
      obtain ⟨-, rfl⟩ := hk'
      exact ((((h.push (by simp)).push (by simp)).push (by simp)).note (by simp)).toPlaced
  | setPriority t p =>
      cases hk'
      exact h.toPlaced.congr rfl rfl rfl rfl rfl fun _ => Iff.rfl
  | oneTick =>
      cases hk'
      exact (h.push (by simp)).toPlaced

theorem Placed.handle {cl : Client ρ δ α} {k k' : Kernel ρ δ} {a : α} (h : k.Placed)
    (hk' : handle cl k a = .ok k') : k'.Placed := by
  unfold Kernel.handle at hk'
  split at hk'
  · cases hk'
  · rename_i sems data _
    cases hk'
    have h' : Placed { k with data := data } := h.congr rfl rfl rfl rfl rfl fun _ => Iff.rfl
    exact h'.foldl_vBody sems

/-- A frame that goes on. -/
theorem Awake.resume_go {cl : Client ρ δ α} {k k' : Kernel ρ δ} {f : Frame ρ} (h : k.Awake)
    (hf : f ≠ .sleepLoop) (hk' : resume cl k f .go = .ok k') : k'.Placed := by
  cases f with
  | call o => exact h.exec hk'
  | setLevel now =>
      cases hk'
      exact (h.setLevel now).toPlaced
  | oneTick =>
      cases hk'
      exact (h.disable.push (by simp)).toPlaced
  | firing =>
      cases hk'
      exact h.toPlaced.congr rfl rfl rfl rfl rfl fun _ => Iff.rfl
  | sleepLoop => exact absurd rfl hf
  | afterSwitch => exact h.afterSwitch hk'
  | pRetest s => exact h.pLoop hk'
  | acquireRetest l => exact h.acquireLoop hk'
  | acquireReturn l =>
      cases hk'
      exact (h.note (by simp)).toPlaced
  | waitEnqueue c l old =>
      have h' := h.note (e := .waitQueued c k.currentThread) (by simp)
      exact h'.sleepOn (q := .condition c) (f := .waitWoken c l old) rfl hk'
  | waitWoken c l old =>
      cases hk'
      exact (((h.push (by simp)).push (by simp)).push (by simp)).toPlaced
  | waitReturn c l =>
      simp only [Kernel.resume, assertThen_ok, Except.ok.injEq] at hk'
      obtain ⟨-, rfl⟩ := hk'
      exact (h.note (by simp)).toPlaced
  | finishLoop =>
      cases hk'
      exact h.finishLoop.toPlaced
  | finishDone => exact h.finishDone hk'
  | finished => cases hk'
  | joinBody t =>
      cases hk'
      have h' : Awake { k with readyToJoin := Function.update k.readyToJoin t true } :=
        h.congr rfl rfl rfl rfl rfl fun _ => Iff.rfl
      exact ((((h'.push (by simp)).push (by simp)).push (by simp)).push (by simp)).toPlaced
  | joinReturn t =>
      cases hk'
      exact (h.note (by simp)).toPlaced

theorem Awake.resume {cl : Client ρ δ α} {k k' : Kernel ρ δ} {f : Frame ρ} {lab : Label α}
    (h : k.Awake) (hf : f ≠ .sleepLoop) (hk' : resume cl k f lab = .ok k') : k'.Placed := by
  rcases resume_cases hk' with rfl | ⟨rfl, rfl, rfl⟩ | ⟨a, rfl, rfl | rfl, hh⟩
  · exact h.resume_go hf hk'
  · have h' : Awake { k with level := .intOn } := h.congr rfl rfl rfl rfl rfl fun _ => Iff.rfl
    exact (h'.push (by simp)).toPlaced
  · exact (h.push (by simp)).toPlaced.handle hh
  · exact absurd rfl hf

theorem push_pop {k : Kernel ρ δ} {f : Frame ρ} {rest : List (Frame ρ)}
    (hs : k.stack k.currentThread = f :: rest) : (k.setStack rest).push f = k := by
  simp only [push, setStack, Function.update_self, Function.update_idem, ← hs,
    Function.update_eq_self]

theorem Placed.resume_sleepLoop {cl : Client ρ δ α} {k k' : Kernel ρ δ} {lab : Label α}
    {rest : List (Frame ρ)} (h : k.Placed) (hs : k.stack k.currentThread = .sleepLoop :: rest)
    (hk' : resume cl (k.setStack rest) .sleepLoop lab = .ok k') : k'.Placed := by
  rcases resume_cases hk' with rfl | ⟨hf, -⟩ | ⟨a, rfl, -, hh⟩
  · obtain ⟨e, es, hq, rfl⟩ := sleepLoop_go hk'
    exact (h.switch hs hq).toPlaced
  · cases hf
  · rw [push_pop hs] at hh
    exact h.handle hh

/-- Every step of every program keeps the placement. -/
theorem Placed.step {cl : Client ρ δ α} {k k' : Kernel ρ δ} {lab : Label α} (h : k.Placed)
    (hk' : step cl k lab = .ok k') : k'.Placed := by
  unfold Kernel.step at hk'
  split at hk'
  · rename_i a hs
    have h' : k.Awake := h.awake_of_not_inSleep (by simp [InSleep, hs])
    unfold Kernel.act at hk'
    split at hk'
    · cases hk'
    · split at hk'
      · rename_i o pc data _ _
        have h'' : (k.advance pc data).Awake := h'.congr rfl rfl rfl rfl rfl fun _ => Iff.rfl
        exact h''.exec hk'
      · cases hk'
  · cases hk'
  · rename_i f rest hs
    by_cases hf : f = .sleepLoop
    · subst hf
      exact h.resume_sleepLoop hs hk'
    · have h' : k.Awake := h.awake_of_not_inSleep (by simpa [InSleep, hs] using hf)
      exact (h'.pop hs).resume hf hk'

theorem Placed.init (start : ρ) (data : δ) (initialValue : ℕ → ℤ) :
    (Kernel.init start data initialValue).Placed := by
  refine ⟨?_, ?_, ?_, ?_, .inl ⟨?_, ?_⟩, ?_⟩
  · intro q t
    by_cases ht : t = 0 <;> simp [occ, Kernel.init, seat, ht]
  · intro t ht
    by_contra hne
    simp [Kernel.init, show t ≠ 0 from hne] at ht
  · intro t
    by_cases ht : t = 0
    · simp [Kernel.init, ht]
    · simp [Kernel.init, ht, Nat.one_le_iff_ne_zero]
  · simp [Kernel.init]
  · simp [Kernel.init]
  · simp [Kernel.init]
  · intro t
    by_cases ht : t = 0 <;> simp [Homeless, Kernel.init, ht]

theorem Runs.placed {cl : Client ρ δ α} {start : ρ} {data : δ} {initialValue : ℕ → ℤ}
    {k : Kernel ρ δ} (h : Runs cl start data initialValue k) : k.Placed :=
  Reachable.invariant (Placed.init start data initialValue) (fun _ _ _ _ hi hs => hi.step hs) h

/-- A thread that exists is on no queue when it runs or has completed `Finish`,
and otherwise on the one queue that its status says. -/
theorem Placed.one_place {k : Kernel ρ δ} (h : k.Placed) {t : Tid} (ht : t < k.numThreads)
    (hrun : ¬ (t = k.currentThread ∧ ¬ k.InSleep)) (hfin : Event.finishCompleted t ∉ k.log) :
    ∃ q, occ k.queue q t = 1 ∧ (∀ q', q' ≠ q → occ k.queue q' t = 0) ∧
      (q = .readyList ∧ k.status t = .ready ∨ q ≠ .readyList ∧ k.status t = .blocked) := by
  have hseat : ∃ q, k.seat t = some q ∧
      (q = .readyList ∧ k.status t = .ready ∨ q ≠ .readyList ∧ k.status t = .blocked) := by
    cases hst : k.status t with
    | justCreated => exact absurd ((h.created t).1 hst) (not_le.2 ht)
    | running =>
        have htc := h.running t hst
        refine absurd ⟨htc, ?_⟩ hrun
        rintro ⟨rest, hrest⟩
        subst htc
        rcases h.current with ⟨_, hn⟩ | ⟨_, _, _, hb | hb⟩
        · simp [hrest] at hn
        · rw [hb] at hst
          cases hst
        · rw [hb] at hst
          cases hst
    | ready => exact ⟨.readyList, by simp [seat, hst], .inl ⟨rfl, rfl⟩⟩
    | blocked =>
        cases hh : home (k.stack t) with
        | none => exact absurd ((h.finished t).1 ⟨hst, hh⟩) hfin
        | some q =>
            refine ⟨q, by simp [seat, hst, hh], .inr ⟨?_, rfl⟩⟩
            rintro rfl
            match hk : k.stack t, hh with
            | _ :: f :: _, hh => cases f <;> simp [home, Frame.home] at hh
  obtain ⟨q, hq, hstatus⟩ := hseat
  refine ⟨q, by simp [h.seated q t, hq], ?_, hstatus⟩
  intro q' hne
  simp [h.seated q' t, hq, hne.symm]

theorem Placed.no_place {k : Kernel ρ δ} (h : k.Placed) {t : Tid}
    (ht : t = k.currentThread ∧ ¬ k.InSleep ∨ Event.finishCompleted t ∈ k.log) (q : QueueId) :
    occ k.queue q t = 0 := by
  rw [h.seated q t]
  rcases ht with ⟨rfl, hs⟩ | hfin
  · simp [(h.awake_of_not_inSleep hs).seat_current]
  · obtain ⟨hb, hn⟩ := (h.finished t).2 hfin
    simp [seat, hb, hn]

/-- The running thread is on no queue; every other thread that exists and has not
completed `Finish` is on exactly one queue and once, on the ready list when its
status is `READY` and on that of an object when it is `BLOCKED`; a thread that has
completed `Finish` is on none. -/
theorem every_thread_in_one_place (cl : Client ρ δ α) (start : ρ) (data : δ)
    (initialValue : ℕ → ℤ) (k : Kernel ρ δ) (h : Runs cl start data initialValue k) :
    (¬ k.InSleep → ∀ q, occ k.queue q k.currentThread = 0) ∧
      (∀ t, t < k.numThreads → (t = k.currentThread → k.InSleep) →
        Event.finishCompleted t ∉ k.log →
          ∃ q, occ k.queue q t = 1 ∧ (∀ q', q' ≠ q → occ k.queue q' t = 0) ∧
            (k.status t = .ready ↔ q = .readyList) ∧ (k.status t = .blocked ↔ q ≠ .readyList)) ∧
        (∀ t, Event.finishCompleted t ∈ k.log → ∀ q, occ k.queue q t = 0) := by
  refine ⟨?_, ?_, ?_⟩
  · intro hs q
    exact h.placed.no_place (.inl ⟨rfl, hs⟩) q
  · intro t ht hrun hfin
    obtain ⟨q, hone, hno, hst⟩ := h.placed.one_place ht (fun hc => hc.2 (hrun hc.1)) hfin
    refine ⟨q, hone, hno, ?_⟩
    rcases hst with ⟨hq, hst⟩ | ⟨hq, hst⟩ <;> simp [hq, hst]
  · intro t hfin q
    exact h.placed.no_place (.inr hfin) q

/-- The main thread forks another one and the time slice ends. -/
theorem every_thread_in_one_place_fork :
    ∃ k, Runs (scripted fun _ _ => some (.fork 1 0 0)) 0 () (fun _ => 0) k ∧
      k.currentThread = 1 ∧
        ∃ q, occ k.queue q 0 = 1 ∧ (∀ q', q' ≠ q → occ k.queue q' 0 = 0) ∧
          (k.status 0 = .ready ↔ q = .readyList) ∧ (k.status 0 = .blocked ↔ q ≠ .readyList) := by
  have hrun := every_thread_in_one_place (scripted fun _ _ => some (.fork 1 0 0)) 0 ()
    (fun _ => 0) _ ⟨[.act (), .go, .go, .timer, .go], rfl⟩
  exact ⟨_, ⟨[.act (), .go, .go, .timer, .go], rfl⟩, rfl,
    hrun.2.1 0 (by decide) (fun h => absurd h (by decide)) (by decide)⟩

end Kernel

end Nachos
