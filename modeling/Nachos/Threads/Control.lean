import Nachos.Threads.Placement

/-!
# Control flow

What a step does to the stacks. Seen from outside, the code that a thread has
left to run is rewritten at its top: the topmost frame `f` is replaced by the
frames that `f` expands to, and a thread that is in its own code starts with the
frames of the call it makes. `Call.Next` and `Frame.Next` are the rewriting rules,
`step_stack` says that a step applies one of them to the stack of the current
thread and leaves every other stack alone, and `Runs.stacks` is the invariant
rule that follows.

Two frames of one stack stand in the relation `Above`, which says what can be
pending on top of what. It is all that later modules need to know about the
shape of the stacks.
-/

namespace Nachos

open Lib



/-- The frames that a call of the thread `me` starts with. -/
inductive Call.Next {ρ : Type} (me : Tid) : Call ρ → List (Frame ρ) → Prop
  | pTake (s old) : Next me (.P s) [.setLevel old]
  | pSleep (s old) : Next me (.P s) [.sleepLoop, .pRetest s, .setLevel old]
  | V (s old) : Next me (.V s) [.setLevel old]
  | acquireTake (l old) : Next me (.acquire l) [.setLevel old, .acquireReturn l]
  | acquireSleep (l old) :
      Next me (.acquire l) [.sleepLoop, .acquireRetest l, .setLevel old, .acquireReturn l]
  | release (l old) : Next me (.release l) [.setLevel old]
  | wait (c l old) : Next me (.wait c l) [.call (.release l), .waitEnqueue c l old]
  | signal (c l) : Next me (.signal c l) []
  | broadcast (c l) : Next me (.broadcast c l) []
  | yieldAlone (old) : Next me .yield [.setLevel old]
  | yieldSwitch (old) : Next me .yield [.afterSwitch, .setLevel old]
  | fork (t join start old) : Next me (.fork t join start) [.setLevel old]
  | finish : Next me .finish [.call (.acquire (.ofThread me)), .finishLoop]
  | join (t) : Next me (.join t) [.call (.acquire (.ofThread t)), .joinBody t, .joinReturn t]
  | setPriority (t p) : Next me (.setPriority t p) []
  | oneTick : Next me .oneTick [.oneTick]

/-- The frames that the topmost frame of the thread `me` is replaced by. -/
inductive Frame.Next {ρ : Type} (me : Tid) : Frame ρ → List (Frame ρ) → Prop
  | call (o new) (h : o.Next me new) : Next me (.call o) new
  | setLevel (now) : Next me (.setLevel now) []
  | setLevelTick : Next me (.setLevel .intOn) [.oneTick]
  | oneTick : Next me .oneTick [.firing]
  | firingMore : Next me .firing [.firing]
  | firingDone : Next me .firing []
  | firingYield : Next me .firing [.call .yield]
  | sleepIdle : Next me .sleepLoop [.sleepLoop]
  | sleepSwitch : Next me .sleepLoop [.afterSwitch]
  | afterSwitch : Next me .afterSwitch []
  | pRetestTake (s) : Next me (.pRetest s) []
  | pRetestSleep (s) : Next me (.pRetest s) [.sleepLoop, .pRetest s]
  | acquireRetestTake (l) : Next me (.acquireRetest l) []
  | acquireRetestSleep (l) : Next me (.acquireRetest l) [.sleepLoop, .acquireRetest l]
  | acquireReturn (l) : Next me (.acquireReturn l) []
  | waitEnqueue (c l old) :
      Next me (.waitEnqueue c l old) [.sleepLoop, .waitWoken c l old]
  | waitWoken (c l old) :
      Next me (.waitWoken c l old) [.setLevel old, .call (.acquire l), .waitReturn c l]
  | waitReturn (c l) : Next me (.waitReturn c l) []
  | finishLoopTurn :
      Next me .finishLoop [.call (.signal (.ofThread me) (.ofThread me)),
        .call (.wait (.ofThread me) (.ofThread me)),
        .call (.signal (.ofThread me) (.ofThread me)), .finishLoop]
  | finishLoopJoin :
      Next me .finishLoop [.call (.signal (.ofThread me) (.ofThread me)),
        .call (.wait (.ofThread me) (.ofThread me)),
        .call (.release (.ofThread me)), .finishDone]
  | finishLoopExit :
      Next me .finishLoop [.call (.signal (.ofThread me) (.ofThread me)),
        .call (.release (.ofThread me)), .finishDone]
  | finishDone : Next me .finishDone [.sleepLoop, .finished]
  | joinBody (t) :
      Next me (.joinBody t) [.call (.signal (.ofThread t) (.ofThread t)),
        .call (.wait (.ofThread t) (.ofThread t)),
        .call (.signal (.ofThread t) (.ofThread t)), .call (.release (.ofThread t))]
  | joinReturn (t) : Next me (.joinReturn t) []

/-- One step of the thread `me`, as far as its stack is concerned. -/
inductive Rewrites {ρ : Type} (me : Tid) : List (Frame ρ) → List (Frame ρ) → Prop
  | own (o : Call ρ) (new) (ho : o.isPublic = true) (h : o.Next me new) : Rewrites me [] new
  | frame (f : Frame ρ) (new rest) (h : f.Next me new) : Rewrites me (f :: rest) (new ++ rest)

/-- The frames of `SetLevel`, `OneTick`, `Yield` and `Sleep`, which return to the
routine below them and touch nothing of it. -/
def Frame.Calm {ρ : Type} : Frame ρ → Prop
  | .setLevel _ => True
  | .oneTick => True
  | .firing => True
  | .sleepLoop => True
  | .afterSwitch => True
  | .call .yield => True
  | _ => False

/-- The frame `g` can be pending on top of the frame `f`. -/
def Above {ρ : Type} (g : Frame ρ) : Frame ρ → Prop
  | .oneTick => False
  | .firing => False
  | .sleepLoop => False
  | .afterSwitch => False
  | .pRetest _ => g = .sleepLoop ∨ g = .afterSwitch
  | .acquireRetest _ => g = .sleepLoop ∨ g = .afterSwitch
  | .waitWoken _ _ _ => g = .sleepLoop ∨ g = .afterSwitch
  | .finished => g = .sleepLoop ∨ g = .afterSwitch
  | .acquireReturn l => g.Calm ∨ g = .acquireRetest l
  | .waitEnqueue _ l _ => g.Calm ∨ g = .call (.release l)
  | .waitReturn _ l =>
      g.Calm ∨ g = .call (.acquire l) ∨ g = .acquireRetest l ∨ g = .acquireReturn l
  | _ => True

/-- What a calm frame turns into is calm. -/
theorem Frame.Calm.next {ρ : Type} {me : Tid} {f g : Frame ρ} {new : List (Frame ρ)}
    (hf : f.Calm) (h : f.Next me new) (hg : g ∈ new) : g.Calm := by
  cases h with
  | call o new h =>
      cases h <;> simp_all [Calm]
      rcases hg with rfl | rfl <;> trivial
  | _ => simp_all [Calm]

theorem Call.Next.pairwise {ρ : Type} {me : Tid} {o : Call ρ} {new : List (Frame ρ)}
    (h : o.Next me new) : new.Pairwise Above := by
  cases h <;> simp [Above, Frame.Calm]

theorem Frame.Next.pairwise {ρ : Type} {me : Tid} {f : Frame ρ} {new : List (Frame ρ)}
    (h : f.Next me new) : new.Pairwise Above := by
  cases h with
  | call o new h => exact h.pairwise
  | _ => simp [Above, Frame.Calm]

/-- What stands on top of `f` and what it is replaced by can stand on top of `f`. -/
theorem Above.next {ρ : Type} {me : Tid} {f g g' : Frame ρ} {new : List (Frame ρ)}
    (ha : Above g f) (h : g.Next me new) (hg : g' ∈ new) : Above g' f := by
  cases f with
  | pRetest s =>
      rcases ha with rfl | rfl <;> cases h <;> simp_all [Above]
  | acquireRetest l =>
      rcases ha with rfl | rfl <;> cases h <;> simp_all [Above]
  | waitWoken c l old =>
      rcases ha with rfl | rfl <;> cases h <;> simp_all [Above]
  | finished =>
      rcases ha with rfl | rfl <;> cases h <;> simp_all [Above]
  | acquireReturn l =>
      rcases ha with hc | rfl
      · exact .inl (hc.next h hg)
      · cases h <;> simp_all [Above, Frame.Calm]
        rcases hg with rfl | rfl <;> simp
  | waitEnqueue c l old =>
      rcases ha with hc | rfl
      · exact .inl (hc.next h hg)
      · cases h with
        | call _ _ h => cases h; simp_all [Above, Frame.Calm]
  | waitReturn c l =>
      rcases ha with hc | rfl | rfl | rfl
      · exact .inl (hc.next h hg)
      · cases h with
        | call _ _ h =>
            cases h <;> simp_all [Above, Frame.Calm]
            · rcases hg with rfl | rfl <;> simp
            · rcases hg with rfl | rfl | rfl | rfl <;> simp
      · cases h <;> simp_all [Above, Frame.Calm]
        rcases hg with rfl | rfl <;> simp
      · cases h
        simp_all
  | _ => trivial

theorem Rewrites.pairwise {ρ : Type} {me : Tid} {fs gs : List (Frame ρ)} (h : Rewrites me fs gs)
    (hp : fs.Pairwise Above) : gs.Pairwise Above := by
  cases h with
  | own o new ho h => exact h.pairwise
  | frame f new rest h =>
      rw [List.pairwise_cons] at hp
      rw [List.pairwise_append]
      exact ⟨h.pairwise, hp.2, fun g hg f' hf' => (hp.1 f' hf').next h hg⟩

theorem Rewrites.frame_of_ne_nil {ρ : Type} {me : Tid} {fs gs : List (Frame ρ)}
    (h : Rewrites me fs gs) (hne : fs ≠ []) :
    ∃ f new rest, fs = f :: rest ∧ gs = new ++ rest ∧ f.Next me new := by
  cases h with
  | own o new ho h => exact absurd rfl hne
  | frame f new rest h => exact ⟨f, new, rest, rfl, rfl, h⟩

theorem Above.of_home {ρ : Type} {g f : Frame ρ} {q : QueueId} (h : Above g f)
    (hf : f.home = some q) :
    g = .sleepLoop ∨ g = .afterSwitch := by
  cases f <;> simp_all [Frame.home, Above]

/-- A frame with a home is the topmost one, or the one that `Sleep` returns to. -/
theorem home_of_mem {ρ : Type} {f : Frame ρ} {fs : List (Frame ρ)} {q : QueueId}
    (hp : fs.Pairwise Above)
    (hmem : f ∈ fs) (hf : f.home = some q) :
    (∃ rest, fs = f :: rest) ∨
      ∃ rest, fs = .sleepLoop :: f :: rest ∨ fs = .afterSwitch :: f :: rest := by
  cases fs with
  | nil => cases hmem
  | cons g gs =>
      rcases List.mem_cons.1 hmem with rfl | hmem
      · exact .inl ⟨gs, rfl⟩
      · rw [List.pairwise_cons] at hp
        have hg := (hp.1 f hmem).of_home hf
        cases gs with
        | nil => cases hmem
        | cons g' gs =>
            rcases List.mem_cons.1 hmem with rfl | hmem
            · refine .inr ⟨gs, ?_⟩
              rcases hg with rfl | rfl <;> simp
            · have hg' := ((List.pairwise_cons.1 hp.2).1 f hmem).of_home hf
              have := hp.1 g' (by simp)
              rcases hg' with rfl | rfl <;> exact this.elim

namespace Kernel

variable {ρ δ α : Type}

theorem mem_insert_queue {k : Kernel ρ δ} {q : QueueId} {t u : Tid} :
    u ∈ ((k.insert q t).queue q).map Keyed.item ↔ u = t ∨ u ∈ (k.queue q).map Keyed.item := by
  have hperm := (perm_sortedInsert ⟨t, negPriority (k.priority t)⟩ (k.queue q)).map Keyed.item
  rw [insert_queue, Function.update_self, hperm.mem_iff]
  simp

/-! ## What waking a thread leaves alone -/

/-- Waking the front of a queue changes one status and two queues. -/
theorem wakeOne_eq (k : Kernel ρ δ) (q : QueueId) :
    ∃ st qu, k.wakeOne q = { k with status := st, queue := qu } := by
  unfold wakeOne remove
  cases k.queue q with
  | nil => exact ⟨k.status, k.queue, rfl⟩
  | cons e es => exact ⟨_, _, rfl⟩

theorem vBody_eq (k : Kernel ρ δ) (s : ℕ) :
    ∃ st qu, k.vBody s = { k with
      status := st
      queue := qu
      value := Function.update k.value s (Int.bmod (k.value s + 1) (2 ^ 32))
      log := .vDone s :: k.log } := by
  obtain ⟨st, qu, h⟩ := k.wakeOne_eq (.semaphore s)
  exact ⟨st, qu, by simp [vBody, h, note]⟩

theorem foldl_vBody_eq (k : Kernel ρ δ) (sems : List ℕ) :
    ∃ st qu v lg, sems.foldl vBody k = { k with
      status := st
      queue := qu
      value := v
      log := lg } := by
  induction sems generalizing k with
  | nil => exact ⟨k.status, k.queue, k.value, k.log, rfl⟩
  | cons s sems ih =>
      obtain ⟨st, qu, h⟩ := k.vBody_eq s
      obtain ⟨st', qu', v, lg, h'⟩ := ih (k.vBody s)
      refine ⟨st', qu', v, lg, ?_⟩
      rw [List.foldl_cons, h', h]

theorem signalOne_eq (k : Kernel ρ δ) (c : Obj) :
    ∃ st qu lg, k.signalOne c = { k with
      status := st
      queue := qu
      log := lg } := by
  unfold signalOne remove
  cases k.queue (.condition c) with
  | nil => exact ⟨k.status, k.queue, k.log, rfl⟩
  | cons e es => exact ⟨_, _, _, rfl⟩

theorem broadcastLoop_eq (k : Kernel ρ δ) (c : Obj) (n : ℕ) :
    ∃ st qu lg, broadcastLoop c n k = { k with
      status := st
      queue := qu
      log := lg } := by
  induction n generalizing k with
  | zero => exact ⟨k.status, k.queue, k.log, rfl⟩
  | succ n ih =>
      obtain ⟨st, qu, lg, h⟩ := k.signalOne_eq c
      obtain ⟨st', qu', lg', h'⟩ := ih (k.signalOne c)
      refine ⟨st', qu', lg', ?_⟩
      rw [broadcastLoop, h', h]

theorem handle_eq {cl : Client ρ δ α} {k k' : Kernel ρ δ} {a : α}
    (h : handle cl k a = .ok k') :
    ∃ sems data, cl.handler a k.data = some (sems, data) ∧
      k' = sems.foldl vBody { k with data := data } := by
  unfold handle at h
  split at h
  · cases h
  · rename_i sems data heq
    cases h
    exact ⟨sems, data, heq, rfl⟩

/-! ## The two kinds of steps -/

/-- The current thread makes the call `o` in the state `k₀`: it is the next call of
its own code, or of the kernel routine it is in. -/
inductive Issues (cl : Client ρ δ α) (k : Kernel ρ δ) : Label α → Call ρ → Kernel ρ δ → Prop
  | own (a : α) (o : Call ρ) (pc : ρ) (data : δ) (hs : k.stack k.currentThread = [])
      (hnext : cl.next k.currentThread (k.pc k.currentThread) k.data k.view a =
        some (o, pc, data))
      (ho : o.isPublic = true) : Issues cl k (.act a) o (k.advance pc data)
  | inner (o : Call ρ) (rest : List (Frame ρ))
      (hs : k.stack k.currentThread = .call o :: rest) : Issues cl k .go o (k.setStack rest)

theorem step_cases {cl : Client ρ δ α} {k k' : Kernel ρ δ} {lab : Label α}
    (h : step cl k lab = .ok k') :
    (∃ o k₀, Issues cl k lab o k₀ ∧ k₀.exec o = .ok k') ∨
      ∃ f rest, k.stack k.currentThread = f :: rest ∧ (∀ o, f ≠ .call o) ∧
        resume cl (k.setStack rest) f lab = .ok k' := by
  unfold step at h
  cases hs : k.stack k.currentThread with
  | nil =>
      rw [hs] at h
      cases lab with
      | act a =>
          simp only [act] at h
          split at h
          · cases h
          · split at h
            · rename_i o pc data hnext ho
              exact .inl ⟨o, _, .own a o pc data hs hnext ho, h⟩
            · cases h
      | _ => cases h
  | cons f rest =>
      rw [hs] at h
      cases f with
      | call o =>
          cases lab with
          | go => exact .inl ⟨o, _, .inner o rest hs, h⟩
          | _ => cases h
      | _ => exact .inr ⟨_, rest, rfl, by simp, h⟩

theorem exec_of_top {cl : Client ρ δ α} {k k' : Kernel ρ δ} {lab : Label α} {o : Call ρ}
    {rest : List (Frame ρ)} (h : step cl k lab = .ok k')
    (hs : k.stack k.currentThread = .call o :: rest) : (k.setStack rest).exec o = .ok k' := by
  rcases step_cases h with ⟨o', k₀, hi, he⟩ | ⟨f, rest', hs', hcall, -⟩
  · cases hi with
    | own a o' pc data hs' hnext ho => simp [hs] at hs'
    | inner o' rest' hs' =>
        rw [hs] at hs'
        cases hs'
        exact he
  · rw [hs] at hs'
    cases hs'
    exact absurd rfl (hcall o)

theorem resume_of_top {cl : Client ρ δ α} {k k' : Kernel ρ δ} {lab : Label α} {f : Frame ρ}
    {rest : List (Frame ρ)} (h : step cl k lab = .ok k')
    (hs : k.stack k.currentThread = f :: rest) (hf : ∀ o, f ≠ .call o) :
    resume cl (k.setStack rest) f lab = .ok k' := by
  rcases step_cases h with ⟨o, k₀, hi, -⟩ | ⟨f', rest', hs', -, hr⟩
  · cases hi with
    | own a o pc data hs' hnext ho => simp [hs] at hs'
    | inner o rest' hs' =>
        rw [hs] at hs'
        cases hs'
        exact absurd rfl (hf o)
  · rw [hs] at hs'
    cases hs'
    exact hr

theorem Issues.currentThread_eq {cl : Client ρ δ α} {k k₀ : Kernel ρ δ} {lab : Label α}
    {o : Call ρ} (h : Issues cl k lab o k₀) : k₀.currentThread = k.currentThread := by
  cases h <;> rfl

theorem Issues.awake {cl : Client ρ δ α} {k k₀ : Kernel ρ δ} {lab : Label α} {o : Call ρ}
    (h : Issues cl k lab o k₀) (hp : k.Placed) : k₀.Awake := by
  cases h with
  | own a o pc data hs hnext ho =>
      have h' : k.Awake := hp.awake_of_not_inSleep (by simp [InSleep, hs])
      exact h'.congr rfl rfl rfl rfl rfl fun _ => Iff.rfl
  | inner o rest hs =>
      have h' : k.Awake := hp.awake_of_not_inSleep (by simp [InSleep, hs])
      exact h'.pop hs

/-- The call that the step with the label `lab` makes. -/
def callOf (cl : Client ρ δ α) (k : Kernel ρ δ) (lab : Label α) : Option (Call ρ) :=
  match k.stack k.currentThread, lab with
  | [], .act a =>
      match cl.next k.currentThread (k.pc k.currentThread) k.data k.view a with
      | some (o, _, _) => if o.isPublic then some o else none
      | none => none
  | .call o :: _, .go => some o
  | _, _ => none

theorem callOf_eq_some {cl : Client ρ δ α} {k : Kernel ρ δ} {lab : Label α} {o : Call ρ} :
    callOf cl k lab = some o ↔ ∃ k₀, Issues cl k lab o k₀ := by
  constructor
  · intro h
    unfold callOf at h
    split at h
    · split at h
      · split at h
        · cases h
          exact ⟨_, .own _ o _ _ ‹_› ‹_› ‹_›⟩
        · cases h
      · cases h
    · cases h
      exact ⟨_, .inner o _ ‹_›⟩
    · cases h
  · rintro ⟨k₀, hi⟩
    cases hi with
    | own a o pc data hs hnext ho => simp [callOf, hs, hnext, ho]
    | inner o rest hs => simp [callOf, hs]

/-! ## The stacks after a step -/

/-- The stacks of `k`, with those of the threads that `k'` has in addition. -/
def grown (k k' : Kernel ρ δ) (t : Tid) : List (Frame ρ) :=
  if k.numThreads ≤ t ∧ t < k'.numThreads then [.setLevel .intOn] else k.stack t

theorem grown_of_eq {k k' : Kernel ρ δ} (h : k'.numThreads = k.numThreads) :
    k.grown k' = k.stack := by
  funext t
  have : ¬ (k.numThreads ≤ t ∧ t < k.numThreads) := fun hlt => absurd hlt.1 (not_le.2 hlt.2)
  simp [grown, h, this]

/-- The current thread has pushed the frames `new`, and the CPU has left it only if
`Scheduler::Run` is the topmost of them. -/
structure Pushes (k k' : Kernel ρ δ) (new : List (Frame ρ)) : Prop where
  stack : k'.stack = Function.update (k.grown k') k.currentThread (new ++ k.stack k.currentThread)
  numThreads : k.numThreads ≤ k'.numThreads
  current : k'.currentThread = k.currentThread ∨ ∃ fs, new = .afterSwitch :: fs

theorem Pushes.of_eq {k k' : Kernel ρ δ} {new : List (Frame ρ)}
    (hnum : k'.numThreads = k.numThreads)
    (hcur : k'.currentThread = k.currentThread ∨ ∃ fs, new = .afterSwitch :: fs)
    (hstack : k'.stack = Function.update k.stack k.currentThread (new ++ k.stack k.currentThread)) :
    Pushes k k' new := by
  refine ⟨?_, hnum.ge, hcur⟩
  rw [grown_of_eq hnum]
  exact hstack

theorem Pushes.trans {k k₀ k' : Kernel ρ δ} {new new' : List (Frame ρ)} (h₀ : Pushes k k₀ new)
    (hnum : k₀.numThreads = k.numThreads) (hcur : k₀.currentThread = k.currentThread)
    (h : Pushes k₀ k' new') : Pushes k k' (new' ++ new) := by
  refine ⟨?_, hnum ▸ h.numThreads, ?_⟩
  swap
  · rcases h.current with hc | ⟨fs, rfl⟩
    · exact .inl (hc.trans hcur)
    · exact .inr ⟨fs ++ new, rfl⟩
  have hstack := h₀.stack
  rw [grown_of_eq hnum] at hstack
  rw [h.stack, hcur, hstack]
  funext t
  by_cases ht : t = k.currentThread
  · subst ht
    simp
  · simp [ht, grown, hnum, hstack]

theorem Pushes.of_pop {k k' : Kernel ρ δ} {rest new : List (Frame ρ)}
    (h : Pushes (k.setStack rest) k' new) :
    k'.stack = Function.update (k.grown k') k.currentThread (new ++ rest) ∧
      k.numThreads ≤ k'.numThreads ∧
        (k'.currentThread = k.currentThread ∨ ∃ gs, new ++ rest = .afterSwitch :: gs) := by
  refine ⟨?_, h.numThreads, ?_⟩
  · rw [h.stack]
    funext t
    by_cases ht : t = k.currentThread <;> simp [ht, grown]
  · rcases h.current with hc | ⟨fs, rfl⟩
    · exact .inl hc
    · exact .inr ⟨fs ++ rest, rfl⟩

theorem pLoop_pushes {k k' : Kernel ρ δ} {s : ℕ} (h : k.pLoop s = .ok k') :
    Pushes k k' [] ∨ Pushes k k' [.sleepLoop, .pRetest s] := by
  unfold pLoop at h
  split at h
  · simp only [sleep, assertThen_ok, Except.ok.injEq] at h
    obtain ⟨-, rfl⟩ := h
    exact .inr (.of_eq rfl (.inl rfl) (by simp))
  · cases h
    exact .inl (.of_eq rfl (.inl rfl) (by simp))

theorem acquireLoop_pushes {k k' : Kernel ρ δ} {l : Obj} (h : k.acquireLoop l = .ok k') :
    Pushes k k' [] ∨ Pushes k k' [.sleepLoop, .acquireRetest l] := by
  unfold acquireLoop at h
  split at h
  · simp only [sleep, assertThen_ok, Except.ok.injEq] at h
    obtain ⟨-, rfl⟩ := h
    exact .inr (.of_eq rfl (.inl rfl) (by simp))
  · cases h
    exact .inl (.of_eq rfl (.inl rfl) (by simp))

theorem yield_pushes (k : Kernel ρ δ) :
    Pushes k k.yield [.setLevel k.level] ∨ Pushes k k.yield [.afterSwitch, .setLevel k.level] := by
  unfold yield findNextToRun remove
  cases k.disable.queue .readyList with
  | nil => exact .inl (.of_eq rfl (.inl rfl) (by simp))
  | cons e es => exact .inr (.of_eq rfl (.inr ⟨_, rfl⟩) (by simp))

theorem setLevel_pushes (k : Kernel ρ δ) (now : IntStatus) :
    Pushes k (k.setLevel now) [] ∨ now = .intOn ∧ Pushes k (k.setLevel now) [.oneTick] := by
  unfold Kernel.setLevel
  split
  · rename_i h
    exact .inr ⟨h.1, .of_eq rfl (.inl rfl) (by simp)⟩
  · exact .inl (.of_eq rfl (.inl rfl) (by simp))

theorem fork_pushes {k k' : Kernel ρ δ} {t : Tid} {join : ℤ} {start : ρ}
    (hcur : k.currentThread < k.numThreads) (h : k.fork t join start = .ok k') :
    Pushes k k' [.setLevel k.level] := by
  unfold fork at h
  split at h
  · rename_i ht
    cases h
    subst ht
    refine ⟨?_, Nat.le_succ _, .inl rfl⟩
    funext u
    by_cases hu : u = k.currentThread
    · subst hu
      simp [hcur.ne]
    · by_cases hn : u = k.numThreads
      · subst hn
        simp [hu, grown]
      · have : ¬ (k.numThreads ≤ u ∧ u < k.numThreads + 1) := fun hlt =>
          hn (le_antisymm (Nat.lt_succ_iff.1 hlt.2) hlt.1)
        simp only [readyToRun_stack, push_stack, ne_eq, hu, not_false_eq_true,
          Function.update_of_ne,
          hn, List.cons_append, List.nil_append, grown, readyToRun_numThreads, push_numThreads,
          this,
          if_false]
  · cases h

theorem exec_pushes {k k' : Kernel ρ δ} {o : Call ρ} (hcur : k.currentThread < k.numThreads)
    (h : k.exec o = .ok k') : ∃ new, o.Next k.currentThread new ∧ Pushes k k' new := by
  have hdis : Pushes k (k.disable.push (.setLevel k.level)) [.setLevel k.level] :=
    .of_eq rfl (.inl rfl) (by simp)
  cases o with
  | P s =>
      rcases pLoop_pushes h with hp | hp
      · exact ⟨_, .pTake s k.level, hdis.trans rfl rfl hp⟩
      · exact ⟨_, .pSleep s k.level, hdis.trans rfl rfl hp⟩
  | V s =>
      cases h
      obtain ⟨st, qu, hv⟩ := (k.disable.push (.setLevel k.level)).vBody_eq s
      exact ⟨_, .V s k.level, .of_eq (by simp [semV, hv]) (.inl (by simp [semV, hv]))
        (by simp [semV, hv])⟩
  | acquire l =>
      simp only [exec, acquire, assertThen_ok] at h
      have hdis' : Pushes k ((k.disable.push (.acquireReturn l)).push (.setLevel k.level))
          [.setLevel k.level, .acquireReturn l] := .of_eq rfl (.inl rfl) (by simp)
      rcases acquireLoop_pushes h.2 with hp | hp
      · exact ⟨_, .acquireTake l k.level, hdis'.trans rfl rfl hp⟩
      · exact ⟨_, .acquireSleep l k.level, hdis'.trans rfl rfl hp⟩
  | release l =>
      simp only [exec, release, assertThen_ok, Except.ok.injEq] at h
      obtain ⟨-, rfl⟩ := h
      obtain ⟨st, qu, hw⟩ := ((k.disable.push (.setLevel k.level)).note
        (.releaseCalled l k.currentThread)).wakeOne_eq (.lock l)
      exact ⟨_, .release l k.level, .of_eq (by simp [hw]) (.inl (by simp [hw])) (by simp [hw])⟩
  | wait c l =>
      simp only [exec, wait, assertThen_ok, Except.ok.injEq] at h
      obtain ⟨-, rfl⟩ := h
      exact ⟨_, .wait c l k.level, .of_eq rfl (.inl rfl) (by simp)⟩
  | signal c l =>
      simp only [exec, signal, assertThen_ok, Except.ok.injEq] at h
      obtain ⟨-, rfl⟩ := h
      obtain ⟨st, qu, lg, hk⟩ := k.signalOne_eq c
      exact ⟨_, .signal c l, .of_eq (by simp [hk]) (.inl (by simp [hk])) (by simp [hk])⟩
  | broadcast c l =>
      simp only [exec, broadcast, assertThen_ok, Except.ok.injEq] at h
      obtain ⟨-, rfl⟩ := h
      obtain ⟨st, qu, lg, hk⟩ := k.broadcastLoop_eq c (k.queue (.condition c)).length
      exact ⟨_, .broadcast c l, .of_eq (by simp [hk]) (.inl (by simp [hk])) (by simp [hk])⟩
  | yield =>
      cases h
      rcases k.yield_pushes with hp | hp
      · exact ⟨_, .yieldAlone k.level, hp⟩
      · exact ⟨_, .yieldSwitch k.level, hp⟩
  | fork t join start => exact ⟨_, .fork t join start k.level, fork_pushes hcur h⟩
  | finish =>
      cases h
      exact ⟨_, .finish, .of_eq rfl (.inl rfl) (by simp [finish])⟩
  | join t =>
      simp only [exec, joinCall, assertThen_ok, Except.ok.injEq] at h
      obtain ⟨-, rfl⟩ := h
      exact ⟨_, .join t, .of_eq rfl (.inl rfl) (by simp)⟩
  | setPriority t p =>
      cases h
      exact ⟨_, .setPriority t p, .of_eq rfl (.inl rfl) (by simp)⟩
  | oneTick =>
      cases h
      exact ⟨_, .oneTick, .of_eq rfl (.inl rfl) (by simp)⟩

theorem handle_pushes {cl : Client ρ δ α} {k k' : Kernel ρ δ} {a : α}
    (h : handle cl k a = .ok k') : Pushes k k' [] := by
  obtain ⟨sems, data, -, rfl⟩ := handle_eq h
  obtain ⟨st, qu, v, lg, hk⟩ := foldl_vBody_eq { k with data := data } sems
  rw [hk]
  exact .of_eq rfl (.inl rfl) (by simp)

theorem finishLoop_pushes (k : Kernel ρ δ) :
    ∃ new, Frame.finishLoop.Next k.currentThread new ∧ Pushes k k.finishLoop new := by
  unfold finishLoop
  split
  · exact ⟨_, .finishLoopTurn, .of_eq rfl (.inl rfl) (by simp)⟩
  · split
    · exact ⟨_, .finishLoopJoin, .of_eq rfl (.inl rfl) (by simp)⟩
    · exact ⟨_, .finishLoopExit, .of_eq rfl (.inl rfl) (by simp)⟩

/-- A frame that goes on. -/
theorem resume_go_pushes {cl : Client ρ δ α} {k k' : Kernel ρ δ} {f : Frame ρ}
    (hcur : k.currentThread < k.numThreads) (h : resume cl k f .go = .ok k') :
    ∃ new, f.Next k.currentThread new ∧ Pushes k k' new := by
  cases f with
  | call o =>
      obtain ⟨new, hn, hp⟩ := exec_pushes hcur h
      exact ⟨new, .call o new hn, hp⟩
  | setLevel now =>
      cases h
      rcases k.setLevel_pushes now with hp | ⟨rfl, hp⟩
      · exact ⟨_, .setLevel now, hp⟩
      · exact ⟨_, .setLevelTick, hp⟩
  | oneTick =>
      cases h
      exact ⟨_, .oneTick, .of_eq rfl (.inl rfl) (by simp)⟩
  | firing =>
      cases h
      exact ⟨_, .firingDone, .of_eq rfl (.inl rfl) (by simp)⟩
  | sleepLoop =>
      obtain ⟨e, es, -, rfl⟩ := sleepLoop_go h
      exact ⟨_, .sleepSwitch, .of_eq rfl (.inr ⟨_, rfl⟩) (by simp)⟩
  | afterSwitch =>
      rcases afterSwitch_cases h with ⟨-, rfl⟩ | ⟨t, -, rfl⟩
      · exact ⟨_, .afterSwitch, .of_eq rfl (.inl rfl) (by simp)⟩
      · exact ⟨_, .afterSwitch, .of_eq rfl (.inl rfl) (by simp)⟩
  | pRetest s =>
      rcases pLoop_pushes h with hp | hp
      · exact ⟨_, .pRetestTake s, hp⟩
      · exact ⟨_, .pRetestSleep s, hp⟩
  | acquireRetest l =>
      rcases acquireLoop_pushes h with hp | hp
      · exact ⟨_, .acquireRetestTake l, hp⟩
      · exact ⟨_, .acquireRetestSleep l, hp⟩
  | acquireReturn l =>
      cases h
      exact ⟨_, .acquireReturn l, .of_eq rfl (.inl rfl) (by simp)⟩
  | waitEnqueue c l old =>
      simp only [resume, waitEnqueue, sleep, assertThen_ok, Except.ok.injEq] at h
      obtain ⟨-, rfl⟩ := h
      exact ⟨_, .waitEnqueue c l old, .of_eq rfl (.inl rfl) (by simp)⟩
  | waitWoken c l old =>
      cases h
      exact ⟨_, .waitWoken c l old, .of_eq rfl (.inl rfl) (by simp [waitWoken])⟩
  | waitReturn c l =>
      simp only [resume, assertThen_ok, Except.ok.injEq] at h
      obtain ⟨-, rfl⟩ := h
      exact ⟨_, .waitReturn c l, .of_eq rfl (.inl rfl) (by simp)⟩
  | finishLoop =>
      cases h
      exact k.finishLoop_pushes
  | finishDone =>
      simp only [resume, finishDone, sleep, assertThen_ok, Except.ok.injEq] at h
      obtain ⟨-, rfl⟩ := h
      exact ⟨_, .finishDone, .of_eq rfl (.inl rfl) (by simp)⟩
  | finished => cases h
  | joinBody t =>
      cases h
      exact ⟨_, .joinBody t, .of_eq rfl (.inl rfl) (by simp [joinBody])⟩
  | joinReturn t =>
      cases h
      exact ⟨_, .joinReturn t, .of_eq rfl (.inl rfl) (by simp)⟩

theorem resume_pushes {cl : Client ρ δ α} {k k' : Kernel ρ δ} {f : Frame ρ} {lab : Label α}
    (hcur : k.currentThread < k.numThreads) (h : resume cl k f lab = .ok k') :
    ∃ new, f.Next k.currentThread new ∧ Pushes k k' new := by
  have hpush : ∀ f, Pushes k (k.push f) [f] := fun f => .of_eq rfl (.inl rfl) (by simp)
  rcases resume_cases h with rfl | ⟨rfl, rfl, rfl⟩ | ⟨a, rfl, rfl | rfl, hh⟩
  · exact resume_go_pushes hcur h
  · exact ⟨_, .firingYield, .of_eq rfl (.inl rfl) (by simp)⟩
  · exact ⟨_, .firingMore, (hpush .firing).trans rfl rfl (handle_pushes hh)⟩
  · exact ⟨_, .sleepIdle, (hpush .sleepLoop).trans rfl rfl (handle_pushes hh)⟩

/-- A step rewrites the stack of the current thread and touches no other stack but
that of a thread it makes. A step that changes the current thread leaves the old
one in `Scheduler::Run`. -/
theorem step_stack {cl : Client ρ δ α} {k k' : Kernel ρ δ} {lab : Label α}
    (hcur : k.currentThread < k.numThreads) (h : step cl k lab = .ok k') :
    ∃ fs, Rewrites k.currentThread (k.stack k.currentThread) fs ∧
      k'.stack = Function.update (k.grown k') k.currentThread fs ∧
        k.numThreads ≤ k'.numThreads ∧
          (k'.currentThread = k.currentThread ∨ ∃ gs, fs = .afterSwitch :: gs) := by
  rcases step_cases h with ⟨o, k₀, hi, he⟩ | ⟨f, rest, hs, -, hr⟩
  · cases hi with
    | own a o pc data hs hnext ho =>
        obtain ⟨new, hn, hp⟩ := exec_pushes (k := k.advance pc data) hcur he
        refine ⟨new, hs ▸ .own o new ho hn, ?_, hp.numThreads, hp.current⟩
        rw [hp.stack, advance_stack, advance_currentThread, hs, List.append_nil]
        rfl
    | inner o rest hs =>
        obtain ⟨new, hn, hp⟩ := exec_pushes (k := k.setStack rest) hcur he
        exact ⟨new ++ rest, hs ▸ .frame (.call o) new rest (.call o new hn), hp.of_pop⟩
  · obtain ⟨new, hn, hp⟩ := resume_pushes (k := k.setStack rest) hcur hr
    exact ⟨new ++ rest, hs ▸ .frame f new rest hn, hp.of_pop⟩

theorem step_stack_cases {cl : Client ρ δ α} {k k' : Kernel ρ δ} {lab : Label α}
    (hcur : k.currentThread < k.numThreads) (h : step cl k lab = .ok k') (t : Tid) :
    k'.stack t = k.stack t ∨
      (t = k.currentThread ∧ Rewrites t (k.stack t) (k'.stack t)) ∨
        k.numThreads ≤ t ∧ t < k'.numThreads ∧ k'.stack t = [.setLevel .intOn] := by
  obtain ⟨fs, hr, hs, -, -⟩ := step_stack hcur h
  rw [hs]
  by_cases ht : t = k.currentThread
  · subst ht
    exact .inr (.inl ⟨rfl, by simpa using hr⟩)
  · by_cases hn : k.numThreads ≤ t ∧ t < k'.numThreads
    · exact .inr (.inr ⟨hn.1, hn.2, by simp [ht, grown, hn]⟩)
    · exact .inl (by simp [ht, grown, hn])

/-- The invariant rule for the stacks. -/
theorem Runs.stacks {cl : Client ρ δ α} {start : ρ} {data : δ} {initialValue : ℕ → ℤ}
    {S : Tid → List (Frame ρ) → Prop} (hnil : ∀ t, S t []) (hnew : ∀ t, S t [.setLevel .intOn])
    (hrw : ∀ t fs gs, Rewrites t fs gs → S t fs → S t gs) {k : Kernel ρ δ}
    (h : Runs cl start data initialValue k) (t : Tid) : S t (k.stack t) := by
  refine Reachable.invariant (I := fun k => ∀ t, S t (k.stack t)) hnil ?_ h t
  intro k a k' hk hi hs t
  rcases step_stack_cases (Runs.placed hk).current_lt hs t with heq | ⟨-, hr⟩ | ⟨-, -, heq⟩
  · exact heq ▸ hi t
  · exact hrw t _ _ hr (hi t)
  · exact heq ▸ hnew t

/-! ## Parked threads -/

/-- The stacks are well formed, and every thread but the current one has not
started yet or is to return from `SWITCH`. -/
structure Tidy (k : Kernel ρ δ) : Prop where
  above : ∀ t, (k.stack t).Pairwise Above
  fresh : ∀ t, k.numThreads ≤ t → k.stack t = []
  parked : ∀ t, t ≠ k.currentThread → k.stack t = [] ∨ k.stack t = [.setLevel .intOn] ∨
    ∃ rest, k.stack t = .afterSwitch :: rest

theorem Tidy.step {cl : Client ρ δ α} {k k' : Kernel ρ δ} {lab : Label α} (h : k.Tidy)
    (hp : k.Placed) (hk' : Kernel.step cl k lab = .ok k') : k'.Tidy := by
  obtain ⟨fs, hr, hs, hnum, hcur⟩ := step_stack hp.current_lt hk'
  refine ⟨?_, ?_, ?_⟩
  · intro t
    rcases step_stack_cases hp.current_lt hk' t with heq | ⟨-, hr⟩ | ⟨-, -, heq⟩
    · exact heq ▸ h.above t
    · exact hr.pairwise (h.above t)
    · simp [heq]
  · intro t ht
    have htc : t ≠ k.currentThread := (hp.current_lt.trans_le (hnum.trans ht)).ne'
    rw [hs, Function.update_of_ne htc, grown, if_neg (fun hlt => absurd hlt.2 (not_lt.2 ht))]
    exact h.fresh t (hnum.trans ht)
  · intro t ht
    by_cases htc : t = k.currentThread
    · subst htc
      rcases hcur with hcur | ⟨gs, rfl⟩
      · exact absurd hcur.symm ht
      · exact .inr (.inr ⟨gs, by simp [hs]⟩)
    · rw [hs, Function.update_of_ne htc, grown]
      split
      · exact .inr (.inl rfl)
      · exact h.parked t htc

theorem Tidy.init (start : ρ) (data : δ) (initialValue : ℕ → ℤ) :
    (Kernel.init start data initialValue).Tidy :=
  ⟨fun _ => .nil, fun _ _ => rfl, fun _ _ => .inl rfl⟩

theorem Runs.tidy {cl : Client ρ δ α} {start : ρ} {data : δ} {initialValue : ℕ → ℤ}
    {k : Kernel ρ δ} (h : Runs cl start data initialValue k) : k.Tidy :=
  Reachable.invariant (Tidy.init start data initialValue)
    (fun _ _ _ hk hi hs => hi.step (Runs.placed hk) hs) h

theorem Issues.tidy {cl : Client ρ δ α} {k k₀ : Kernel ρ δ} {lab : Label α} {o : Call ρ}
    (hi : Issues cl k lab o k₀) (ht : k.Tidy) (hp : k.Placed) : k₀.Tidy := by
  cases hi with
  | own a o pc data hs hnext hpub => exact ⟨ht.above, ht.fresh, ht.parked⟩
  | inner o rest hs =>
      have habove := ht.above k.currentThread
      rw [hs, List.pairwise_cons] at habove
      refine ⟨?_, ?_, ?_⟩
      · intro t
        by_cases htc : t = k.currentThread
        · subst htc
          simpa using habove.2
        · simpa [htc] using ht.above t
      · intro t hlt
        have htc : t ≠ k.currentThread := (hp.current_lt.trans_le hlt).ne'
        simpa [htc] using ht.fresh t hlt
      · intro t htc
        have htc' : t ≠ k.currentThread := htc
        simpa [htc'] using ht.parked t htc'

/-! ## Threads in the loop of an object -/

/-- The thread is in the loop of the object with the queue `q`: on the queue, or
removed from it and on its way to test again. -/
def InLoop (k : Kernel ρ δ) (q : QueueId) (t : Tid) : Prop :=
  ∃ f ∈ k.stack t, f.home = some q

/-- The thread has been removed from the queue `q` and has not tested again. -/
def InFlight (k : Kernel ρ δ) (q : QueueId) (t : Tid) : Prop :=
  k.InLoop q t ∧ t ∉ (k.queue q).map Keyed.item

theorem mem_queue_iff {k : Kernel ρ δ} (h : k.Placed) (q : QueueId) (t : Tid) :
    t ∈ (k.queue q).map Keyed.item ↔ k.seat t = some q :=
  h.seated.mem_iff q t

theorem InLoop.seat {k : Kernel ρ δ} {q : QueueId} {t : Tid} (h : k.InLoop q t) (ht : k.Tidy)
    (hp : k.Placed) (hb : k.status t = .blocked) : k.seat t = some q := by
  obtain ⟨f, hmem, hf⟩ := h
  rw [Kernel.seat, hb]
  rcases home_of_mem (ht.above t) hmem hf with ⟨rest, hs⟩ | ⟨rest, hs | hs⟩
  · by_cases htc : t = k.currentThread
    · subst htc
      rcases hp.current with ⟨hr, -⟩ | ⟨rest', hs', -⟩
      · rw [hr] at hb
        cases hb
      · rw [hs] at hs'
        cases hs'
        cases hf
    · rcases ht.parked t htc with hs' | hs' | ⟨rest', hs'⟩
      · simp [hs] at hs'
      · rw [hs] at hs'
        cases hs'
        cases hf
      · rw [hs] at hs'
        cases hs'
        cases hf
  · simp [home, hs, hf]
  · simp [home, hs, hf]

/-- A thread on the queue of an object is in its loop. -/
theorem inLoop_of_mem {k : Kernel ρ δ} (hp : k.Placed) {q : QueueId} (hq : q ≠ .readyList)
    {t : Tid} (h : t ∈ (k.queue q).map Keyed.item) : k.InLoop q t := by
  rw [mem_queue_iff hp, Kernel.seat] at h
  split at h
  · exact absurd (Option.some.inj h).symm hq
  · cases hs : k.stack t with
    | nil =>
        rw [hs] at h
        cases h
    | cons g fs =>
        cases fs with
        | nil =>
            rw [hs] at h
            cases h
        | cons f rest =>
            rw [hs] at h
            exact ⟨f, by simp [hs], h⟩
  · cases h
  · cases h

/-- A thread that has been removed from the queue of an object can run. -/
theorem InFlight.runnable {k : Kernel ρ δ} {q : QueueId} {t : Tid} (h : k.InFlight q t)
    (ht : k.Tidy) (hp : k.Placed) : k.status t = .ready ∨ k.status t = .running := by
  obtain ⟨hl, hq⟩ := h
  cases hst : k.status t with
  | ready => exact .inl rfl
  | running => exact .inr rfl
  | blocked => exact absurd ((mem_queue_iff hp q t).2 (hl.seat ht hp hst)) hq
  | justCreated =>
      obtain ⟨f, hmem, -⟩ := hl
      rw [ht.fresh t ((hp.created t).1 hst)] at hmem
      cases hmem

end Kernel

end Nachos
