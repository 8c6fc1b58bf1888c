import Nachos.Threads.Control

/-!
# One object at a time

A semaphore, a lock or a condition is touched only by its own routines. For the
object with the queue `x` the relation `Same x` between two states says that its
queue and members, the frames of its routines on all stacks, and its part of the
history are the same. `step_object` splits a step of any program into the
routines of the object and the rest, which is `Same x`; a property of one object
is then proved for its own routines only.
-/

namespace Nachos

open Lib



/-- The object whose routine the frame belongs to. -/
def Frame.about {ρ : Type} : Frame ρ → Option QueueId
  | .pRetest s => some (.semaphore s)
  | .acquireRetest l => some (.lock l)
  | .acquireReturn l => some (.lock l)
  | .waitEnqueue c _ _ => some (.condition c)
  | .waitWoken c _ _ => some (.condition c)
  | .waitReturn c _ => some (.condition c)
  | _ => none

def Call.about {ρ : Type} : Call ρ → Option QueueId
  | .P s => some (.semaphore s)
  | .V s => some (.semaphore s)
  | .acquire l => some (.lock l)
  | .release l => some (.lock l)
  | .wait c _ => some (.condition c)
  | .signal c _ => some (.condition c)
  | .broadcast c _ => some (.condition c)
  | _ => none

def Event.about : Event → Option QueueId
  | .pDone s _ => some (.semaphore s)
  | .vDone s => some (.semaphore s)
  | .acquired l _ => some (.lock l)
  | .acquireReturned l _ => some (.lock l)
  | .releaseCalled l _ => some (.lock l)
  | .waitCalled c _ => some (.condition c)
  | .waitQueued c _ => some (.condition c)
  | .waitRemoved c _ _ => some (.condition c)
  | .waitReturned c _ => some (.condition c)
  | _ => none

theorem Frame.about_of_home {ρ : Type} {f : Frame ρ} {q : QueueId} (h : f.home = some q) :
    f.about = some q := by
  cases f <;> simp_all [Frame.home, Frame.about]

/-- The frames of the routines of `x`. -/
def framesOf {ρ : Type} (x : QueueId) (fs : List (Frame ρ)) : List (Frame ρ) :=
  fs.filter fun f => f.about = some x

def eventsOf (x : QueueId) (es : List Event) : List Event :=
  es.filter fun e => e.about = some x

@[simp] theorem framesOf_nil {ρ : Type} (x : QueueId) : framesOf x ([] : List (Frame ρ)) = [] := rfl

@[simp] theorem framesOf_cons_other {ρ : Type} {x : QueueId} {f : Frame ρ} {fs : List (Frame ρ)}
    (h : f.about ≠ some x) : framesOf x (f :: fs) = framesOf x fs := by
  simp [framesOf, h]

@[simp] theorem framesOf_cons_own {ρ : Type} {x : QueueId} {f : Frame ρ} {fs : List (Frame ρ)}
    (h : f.about = some x) : framesOf x (f :: fs) = f :: framesOf x fs := by
  simp [framesOf, h]

theorem mem_framesOf {ρ : Type} {x : QueueId} {f : Frame ρ} {fs : List (Frame ρ)} :
    f ∈ framesOf x fs ↔ f ∈ fs ∧ f.about = some x := by
  simp [framesOf]

@[simp] theorem eventsOf_cons_other {x : QueueId} {e : Event} {es : List Event}
    (h : e.about ≠ some x) : eventsOf x (e :: es) = eventsOf x es := by
  simp [eventsOf, h]

@[simp] theorem eventsOf_cons_own {x : QueueId} {e : Event} {es : List Event}
    (h : e.about = some x) : eventsOf x (e :: es) = e :: eventsOf x es := by
  simp [eventsOf, h]

namespace Kernel

variable {ρ δ α : Type}

/-- Nothing of the object `x` differs between the two states. -/
structure Same (x : QueueId) (k k' : Kernel ρ δ) : Prop where
  queue : k'.queue x = k.queue x
  value : ∀ s, x = .semaphore s → k'.value s = k.value s
  locked : ∀ l, x = .lock l → k'.locked l = k.locked l
  threadHeld : ∀ l, x = .lock l → k'.threadHeld l = k.threadHeld l
  frames : ∀ t, framesOf x (k'.stack t) = framesOf x (k.stack t)
  log : eventsOf x k'.log = eventsOf x k.log

variable {x : QueueId}

theorem Same.refl (k : Kernel ρ δ) : Same x k k :=
  ⟨rfl, fun _ _ => rfl, fun _ _ => rfl, fun _ _ => rfl, fun _ => rfl, rfl⟩

theorem Same.trans {k k₁ k₂ : Kernel ρ δ} (h : Same x k k₁) (h' : Same x k₁ k₂) : Same x k k₂ where
  queue := h'.queue.trans h.queue
  value s hs := (h'.value s hs).trans (h.value s hs)
  locked l hl := (h'.locked l hl).trans (h.locked l hl)
  threadHeld l hl := (h'.threadHeld l hl).trans (h.threadHeld l hl)
  frames t := (h'.frames t).trans (h.frames t)
  log := h'.log.trans h.log

/-- A change outside the objects, the stacks and the history. -/
theorem Same.of_eq {k k' : Kernel ρ δ} (hq : k'.queue x = k.queue x) (hv : k'.value = k.value)
    (hl : k'.locked = k.locked) (hh : k'.threadHeld = k.threadHeld) (hs : k'.stack = k.stack)
    (hlog : k'.log = k.log) : Same x k k' :=
  ⟨hq, fun _ _ => by rw [hv], fun _ _ => by rw [hl], fun _ _ => by rw [hh], fun _ => by rw [hs],
    by rw [hlog]⟩

theorem same_setStack (k : Kernel ρ δ) {fs : List (Frame ρ)}
    (h : framesOf x fs = framesOf x (k.stack k.currentThread)) : Same x k (k.setStack fs) := by
  refine ⟨rfl, fun _ _ => rfl, fun _ _ => rfl, fun _ _ => rfl, fun t => ?_, rfl⟩
  by_cases ht : t = k.currentThread
  · subst ht
    simpa using h
  · simp [ht]

theorem same_push (k : Kernel ρ δ) {f : Frame ρ} (hf : f.about ≠ some x) : Same x k (k.push f) :=
  same_setStack k (framesOf_cons_other hf)

theorem same_pop (k : Kernel ρ δ) {f : Frame ρ} {rest : List (Frame ρ)}
    (hs : k.stack k.currentThread = f :: rest) (hf : f.about ≠ some x) :
    Same x k (k.setStack rest) :=
  same_setStack k (by rw [hs, framesOf_cons_other hf])

theorem same_note (k : Kernel ρ δ) {e : Event} (he : e.about ≠ some x) : Same x k (k.note e) :=
  ⟨rfl, fun _ _ => rfl, fun _ _ => rfl, fun _ _ => rfl, fun _ => rfl, eventsOf_cons_other he⟩

theorem same_disable (k : Kernel ρ δ) : Same x k k.disable := .of_eq rfl rfl rfl rfl rfl rfl

theorem same_insert (k : Kernel ρ δ) {q : QueueId} (hq : x ≠ q) (t : Tid) :
    Same x k (k.insert q t) :=
  .of_eq (by simp [hq]) rfl rfl rfl rfl rfl

theorem same_sleep {k k' : Kernel ρ δ} (h : k.sleep = .ok k') : Same x k k' := by
  simp only [sleep, assertThen_ok, Except.ok.injEq] at h
  obtain ⟨-, rfl⟩ := h
  have h : Same x k (k.setStatus k.currentThread .blocked) := .of_eq rfl rfl rfl rfl rfl rfl
  exact h.trans (same_push _ (by simp [Frame.about]))

theorem same_readyToRun (k : Kernel ρ δ) (hx : x ≠ .readyList) (t : Tid) :
    Same x k (k.readyToRun t) :=
  .of_eq (by simp [hx]) rfl rfl rfl rfl rfl

theorem same_setQueue (k : Kernel ρ δ) {q : QueueId} (hq : x ≠ q) (es : List (Keyed Tid)) :
    Same x k (k.setQueue q es) :=
  .of_eq (by simp [hq]) rfl rfl rfl rfl rfl

theorem same_run (k : Kernel ρ δ) (t : Tid) : Same x k (k.run t) := by
  have h : Same x (k.push .afterSwitch) (k.run t) := .of_eq rfl rfl rfl rfl rfl rfl
  exact (same_push k (by simp [Frame.about])).trans h

theorem same_wakeOne (k : Kernel ρ δ) (hx : x ≠ .readyList) {q : QueueId} (hq : x ≠ q) :
    Same x k (k.wakeOne q) := by
  unfold wakeOne remove
  cases k.queue q with
  | nil => exact .refl k
  | cons e es => exact (same_setQueue k hq es).trans (same_readyToRun _ hx _)

theorem same_setValue (k : Kernel ρ δ) {s : ℕ} (hs : x ≠ .semaphore s) (v : ℤ) :
    Same x k { k with value := Function.update k.value s v } := by
  refine ⟨rfl, ?_, fun _ _ => rfl, fun _ _ => rfl, fun _ => rfl, rfl⟩
  intro s' hs'
  have : s' ≠ s := by
    rintro rfl
    exact hs hs'
  simp [this]

theorem same_setLocked (k : Kernel ρ δ) {l : Obj} (hl : x ≠ .lock l) (b : Bool)
    (holder : Option Tid) :
    Same x k { k with
      locked := Function.update k.locked l b
      threadHeld := Function.update k.threadHeld l holder } := by
  have hne : ∀ l', x = .lock l' → l' ≠ l := by
    rintro l' hl' rfl
    exact hl hl'
  refine ⟨rfl, fun _ _ => rfl, ?_, ?_, fun _ => rfl, rfl⟩
  · intro l' hl'
    simp [hne l' hl']
  · intro l' hl'
    simp [hne l' hl']

theorem same_vBody (k : Kernel ρ δ) (hx : x ≠ .readyList) {s : ℕ} (hs : x ≠ .semaphore s) :
    Same x k (k.vBody s) :=
  ((same_wakeOne k hx hs).trans (same_setValue _ hs _)).trans
    (same_note _ (by simpa [Event.about] using hs.symm))

theorem same_foldl_vBody (k : Kernel ρ δ) (hx : x ≠ .readyList) (hs : ∀ s, x ≠ .semaphore s)
    (sems : List ℕ) : Same x k (sems.foldl vBody k) := by
  induction sems generalizing k with
  | nil => exact .refl k
  | cons s sems ih => exact (same_vBody k hx (hs s)).trans (ih _)

theorem same_pLoop {k k' : Kernel ρ δ} {s : ℕ} (hs : x ≠ .semaphore s) (h : k.pLoop s = .ok k') :
    Same x k k' := by
  unfold pLoop at h
  split at h
  · exact ((same_insert k hs _).trans (same_push _ (by simpa [Frame.about] using hs.symm))).trans
      (same_sleep h)
  · cases h
    exact (same_setValue k hs _).trans (same_note _ (by simpa [Event.about] using hs.symm))

theorem same_acquireLoop {k k' : Kernel ρ δ} {l : Obj} (hl : x ≠ .lock l)
    (h : k.acquireLoop l = .ok k') : Same x k k' := by
  unfold acquireLoop at h
  split at h
  · exact ((same_insert k hl _).trans (same_push _ (by simpa [Frame.about] using hl.symm))).trans
      (same_sleep h)
  · cases h
    exact (same_setLocked k hl _ _).trans (same_note _ (by simpa [Event.about] using hl.symm))

theorem same_release {k k' : Kernel ρ δ} {l : Obj} (hx : x ≠ .readyList) (hl : x ≠ .lock l)
    (h : k.release l = .ok k') : Same x k k' := by
  simp only [release, assertThen_ok, Except.ok.injEq] at h
  obtain ⟨-, rfl⟩ := h
  exact ((((same_disable k).trans (same_push _ (by simp [Frame.about]))).trans
    (same_note _ (by simpa [Event.about] using hl.symm))).trans
    (same_wakeOne _ hx hl)).trans (same_setLocked _ hl _ _)

theorem same_signalOne (k : Kernel ρ δ) (hx : x ≠ .readyList) {c : Obj} (hc : x ≠ .condition c) :
    Same x k (k.signalOne c) := by
  unfold signalOne remove
  cases k.queue (.condition c) with
  | nil => exact .refl k
  | cons e es =>
      exact ((same_setQueue k hc es).trans (same_readyToRun _ hx _)).trans
        (same_note _ (by simpa [Event.about] using hc.symm))

theorem same_broadcastLoop (k : Kernel ρ δ) (hx : x ≠ .readyList) {c : Obj}
    (hc : x ≠ .condition c) (n : ℕ) : Same x k (broadcastLoop c n k) := by
  induction n generalizing k with
  | zero => exact .refl k
  | succ n ih => exact (same_signalOne k hx hc).trans (ih _)

theorem same_yield (k : Kernel ρ δ) (hx : x ≠ .readyList) : Same x k k.yield := by
  unfold yield findNextToRun remove
  cases k.disable.queue .readyList with
  | nil => exact (same_disable k).trans (same_push _ (by simp [Frame.about]))
  | cons e es =>
      exact ((((same_disable k).trans (same_setQueue _ hx es)).trans
        (same_push _ (by simp [Frame.about]))).trans (same_readyToRun _ hx _)).trans (same_run _ _)

theorem same_fork {k k' : Kernel ρ δ} {t : Tid} {join : ℤ} {start : ρ} (hx : x ≠ .readyList)
    (hfresh : k.stack k.numThreads = []) (h : k.fork t join start = .ok k') : Same x k k' := by
  unfold fork at h
  split at h
  · rename_i ht
    cases h
    refine Same.trans (Same.trans ?_ (same_push _ (f := .setLevel k.level) (by simp [Frame.about])))
      (same_readyToRun _ hx t)
    refine ⟨rfl, fun _ _ => rfl, fun _ _ => rfl, fun _ _ => rfl, ?_, rfl⟩
    intro u
    by_cases hu : u = t
    · subst hu
      simp [ht, hfresh, framesOf, Frame.about]
    · simp [hu]
  · cases h

theorem same_setLevel (k : Kernel ρ δ) (now : IntStatus) : Same x k (k.setLevel now) := by
  have h : Same x k { k with level := now } := .of_eq rfl rfl rfl rfl rfl rfl
  unfold Kernel.setLevel
  split
  · exact h.trans (same_push _ (by simp [Frame.about]))
  · exact h

theorem same_afterSwitch {k k' : Kernel ρ δ} (h : k.afterSwitch = .ok k') : Same x k k' := by
  rcases afterSwitch_cases h with ⟨-, rfl⟩ | ⟨t, -, rfl⟩
  · exact .refl k'
  · exact .of_eq rfl rfl rfl rfl rfl rfl

theorem same_exec {k k' : Kernel ρ δ} {o : Call ρ} (hx : x ≠ .readyList) (ho : o.about ≠ some x)
    (hfresh : k.stack k.numThreads = []) (h : k.exec o = .ok k') : Same x k k' := by
  cases o with
  | P s =>
      have hs : x ≠ .semaphore s := by simpa [Call.about, eq_comm] using ho
      exact ((same_disable k).trans (same_push _ (by simp [Frame.about]))).trans (same_pLoop hs h)
  | V s =>
      have hs : x ≠ .semaphore s := by simpa [Call.about, eq_comm] using ho
      cases h
      exact ((same_disable k).trans (same_push _ (by simp [Frame.about]))).trans
        (same_vBody _ hx hs)
  | acquire l =>
      have hl : x ≠ .lock l := by simpa [Call.about, eq_comm] using ho
      simp only [exec, acquire, assertThen_ok] at h
      exact (((same_disable k).trans (same_push _ (by simpa [Frame.about] using hl.symm))).trans
        (same_push _ (by simp [Frame.about]))).trans (same_acquireLoop hl h.2)
  | release l => exact same_release hx (by simpa [Call.about, eq_comm] using ho) h
  | wait c l =>
      simp only [exec, wait, assertThen_ok, Except.ok.injEq] at h
      obtain ⟨-, rfl⟩ := h
      have hc : x ≠ .condition c := by simpa [Call.about, eq_comm] using ho
      exact (((same_disable k).trans (same_push _ (by simpa [Frame.about] using hc.symm))).trans
        (same_push _ (by simp [Frame.about]))).trans
        (same_note _ (by simpa [Event.about] using hc.symm))
  | signal c l =>
      simp only [exec, signal, assertThen_ok, Except.ok.injEq] at h
      obtain ⟨-, rfl⟩ := h
      exact same_signalOne k hx (by simpa [Call.about, eq_comm] using ho)
  | broadcast c l =>
      simp only [exec, broadcast, assertThen_ok, Except.ok.injEq] at h
      obtain ⟨-, rfl⟩ := h
      exact same_broadcastLoop k hx (by simpa [Call.about, eq_comm] using ho) _
  | yield =>
      cases h
      exact same_yield k hx
  | fork t join start => exact same_fork hx hfresh h
  | finish =>
      cases h
      exact (((same_disable k).trans (same_push _ (by simp [Frame.about]))).trans
        (same_push _ (by simp [Frame.about]))).trans (same_note _ (by simp [Event.about]))
  | join t =>
      simp only [exec, joinCall, assertThen_ok, Except.ok.injEq] at h
      obtain ⟨-, rfl⟩ := h
      exact (((same_push k (by simp [Frame.about])).trans
        (same_push _ (by simp [Frame.about]))).trans
        (same_push _ (by simp [Frame.about]))).trans (same_note _ (by simp [Event.about]))
  | setPriority t p =>
      cases h
      exact .of_eq rfl rfl rfl rfl rfl rfl
  | oneTick =>
      cases h
      exact same_push k (by simp [Frame.about])

theorem same_finishLoop (k : Kernel ρ δ) : Same x k k.finishLoop := by
  have hpush : ∀ (k : Kernel ρ δ) (f : Frame ρ), f.about = none → Same x k (k.push f) := by
    intro k f hf
    exact same_push k (by simp [hf])
  unfold finishLoop
  split
  · exact (((hpush _ _ rfl).trans (hpush _ _ rfl)).trans (hpush _ _ rfl)).trans (hpush _ _ rfl)
  · split
    · exact (((hpush _ _ rfl).trans (hpush _ _ rfl)).trans (hpush _ _ rfl)).trans (hpush _ _ rfl)
    · exact ((hpush _ _ rfl).trans (hpush _ _ rfl)).trans (hpush _ _ rfl)

theorem same_resume {cl : Client ρ δ α} {k k' : Kernel ρ δ} {f : Frame ρ} {lab : Label α}
    (hx : x ≠ .readyList) (hf : f.about ≠ some x) (hcall : ∀ o, f ≠ .call o)
    (hlab : ∀ a, lab ≠ .interrupt a) (h : resume cl k f lab = .ok k') : Same x k k' := by
  have hpush : ∀ (k : Kernel ρ δ) (f : Frame ρ), f.about = none → Same x k (k.push f) := by
    intro k f hf
    exact same_push k (by simp [hf])
  have hon : Same x k { k with level := .intOn } := .of_eq rfl rfl rfl rfl rfl rfl
  rcases resume_cases h with rfl | ⟨rfl, rfl, rfl⟩ | ⟨a, rfl, -⟩
  · cases f with
    | call o => exact absurd rfl (hcall o)
    | setLevel now =>
        cases h
        exact same_setLevel k now
    | oneTick =>
        cases h
        exact (same_disable k).trans (hpush _ _ rfl)
    | firing =>
        cases h
        exact hon
    | sleepLoop =>
        obtain ⟨e, es, -, rfl⟩ := sleepLoop_go h
        exact (same_setQueue k hx _).trans (same_run _ _)
    | afterSwitch => exact same_afterSwitch h
    | pRetest s => exact same_pLoop (by simpa [Frame.about, eq_comm] using hf) h
    | acquireRetest l => exact same_acquireLoop (by simpa [Frame.about, eq_comm] using hf) h
    | acquireReturn l =>
        cases h
        exact same_note k (by simpa [Event.about, Frame.about] using hf)
    | waitEnqueue c l old =>
        have hc : x ≠ .condition c := by simpa [Frame.about, eq_comm] using hf
        exact (((same_insert k hc _).trans
          (same_note _ (by simpa [Event.about] using hc.symm))).trans
          (same_push _ (by simpa [Frame.about] using hc.symm))).trans (same_sleep h)
    | waitWoken c l old =>
        cases h
        exact ((same_push k (by simpa [Frame.about] using hf)).trans (hpush _ _ rfl)).trans
          (hpush _ _ rfl)
    | waitReturn c l =>
        simp only [resume, assertThen_ok, Except.ok.injEq] at h
        obtain ⟨-, rfl⟩ := h
        exact same_note k (by simpa [Event.about, Frame.about] using hf)
    | finishLoop =>
        cases h
        exact same_finishLoop k
    | finishDone =>
        have hd : Same x k { k with threadToBeDestroyed := some k.currentThread } :=
          .of_eq rfl rfl rfl rfl rfl rfl
        exact ((hd.trans (same_note _ (by simp [Event.about]))).trans (hpush _ _ rfl)).trans
          (same_sleep h)
    | finished => cases h
    | joinBody t =>
        cases h
        have hj : Same x k { k with readyToJoin := Function.update k.readyToJoin t true } :=
          .of_eq rfl rfl rfl rfl rfl rfl
        exact (((hj.trans (hpush _ _ rfl)).trans (hpush _ _ rfl)).trans (hpush _ _ rfl)).trans
          (hpush _ _ rfl)
    | joinReturn t =>
        cases h
        exact same_note k (by simp [Event.about])
  · exact hon.trans (hpush _ _ rfl)
  · exact absurd rfl (hlab a)

theorem Issues.same {cl : Client ρ δ α} {k k₀ : Kernel ρ δ} {lab : Label α} {o : Call ρ}
    (h : Issues cl k lab o k₀) : Same x k k₀ := by
  cases h with
  | own a o pc data hs hnext ho => exact .of_eq rfl rfl rfl rfl rfl rfl
  | inner o rest hs => exact same_pop k hs (by simp [Frame.about])

/-- An interrupt runs a handler and changes nothing else. -/
theorem resume_interrupt {cl : Client ρ δ α} {k k' : Kernel ρ δ} {f : Frame ρ} {a : α}
    {rest : List (Frame ρ)} (hs : k.stack k.currentThread = f :: rest)
    (h : resume cl (k.setStack rest) f (.interrupt a) = .ok k') : handle cl k a = .ok k' := by
  rcases resume_cases h with hlab | ⟨-, hlab, -⟩ | ⟨b, hlab, -, hh⟩ <;> cases hlab
  rwa [push_pop hs] at hh

/-- A step is a routine of the object `x`, a handler, or leaves the object alone. -/
theorem step_object {cl : Client ρ δ α} {k k' : Kernel ρ δ} {lab : Label α}
    (hx : x ≠ .readyList) (ht : k.Tidy) (hp : k.Placed) (h : step cl k lab = .ok k') :
    Same x k k' ∨
      (∃ o k₀, Issues cl k lab o k₀ ∧ o.about = some x ∧ k₀.exec o = .ok k') ∨
        (∃ f rest, k.stack k.currentThread = f :: rest ∧ f.about = some x ∧ f ≠ .sleepLoop ∧
          (∀ a, lab ≠ .interrupt a) ∧ resume cl (k.setStack rest) f lab = .ok k') ∨
          ∃ a s, x = .semaphore s ∧ handle cl k a = .ok k' := by
  rcases step_cases h with ⟨o, k₀, hi, he⟩ | ⟨f, rest, hs, hcall, hr⟩
  · by_cases ho : o.about = some x
    · exact .inr (.inl ⟨o, k₀, hi, ho, he⟩)
    · have hfresh : k₀.stack k₀.numThreads = [] := by
        have hne : k.numThreads ≠ k.currentThread := hp.current_lt.ne'
        have := ht.fresh k.numThreads le_rfl
        cases hi with
        | own a o pc data hs hnext ho => simpa using this
        | inner o rest hs => simpa [hne] using this
      exact .inl (hi.same.trans (same_exec hx ho hfresh he))
  · by_cases hlab : ∃ a, lab = .interrupt a
    · obtain ⟨a, rfl⟩ := hlab
      have hh := resume_interrupt hs hr
      by_cases hsem : ∃ s, x = .semaphore s
      · obtain ⟨s, rfl⟩ := hsem
        exact .inr (.inr (.inr ⟨a, s, rfl, hh⟩))
      · obtain ⟨sems, data, -, rfl⟩ := handle_eq hh
        have hd : Same x k { k with data := data } := .of_eq rfl rfl rfl rfl rfl rfl
        exact .inl (hd.trans (same_foldl_vBody _ hx (fun s hs => hsem ⟨s, hs⟩) sems))
    · have hlab' : ∀ a, lab ≠ .interrupt a := fun a ha => hlab ⟨a, ha⟩
      by_cases hf : f.about = some x
      · refine .inr (.inr (.inl ⟨f, rest, hs, hf, ?_, hlab', hr⟩))
        rintro rfl
        cases hf
      · exact .inl ((same_pop k hs hf).trans (same_resume hx hf hcall hlab' hr))

/-! ## What `Same` keeps -/

theorem Same.mem_stack {k k' : Kernel ρ δ} (h : Same x k k') {f : Frame ρ}
    (hf : f.about = some x) (t : Tid) : f ∈ k'.stack t ↔ f ∈ k.stack t := by
  have h' := h.frames t
  constructor
  · intro hmem
    have : f ∈ framesOf x (k'.stack t) := mem_framesOf.2 ⟨hmem, hf⟩
    rw [h'] at this
    exact (mem_framesOf.1 this).1
  · intro hmem
    have : f ∈ framesOf x (k.stack t) := mem_framesOf.2 ⟨hmem, hf⟩
    rw [← h'] at this
    exact (mem_framesOf.1 this).1

theorem Same.inLoop {k k' : Kernel ρ δ} (h : Same x k k') (t : Tid) :
    k'.InLoop x t ↔ k.InLoop x t := by
  constructor
  · rintro ⟨f, hmem, hf⟩
    exact ⟨f, (h.mem_stack (Frame.about_of_home hf) t).1 hmem, hf⟩
  · rintro ⟨f, hmem, hf⟩
    exact ⟨f, (h.mem_stack (Frame.about_of_home hf) t).2 hmem, hf⟩

theorem Same.inFlight {k k' : Kernel ρ δ} (h : Same x k k') (t : Tid) :
    k'.InFlight x t ↔ k.InFlight x t := by
  unfold InFlight
  rw [h.inLoop, h.queue]

end Kernel

end Nachos
