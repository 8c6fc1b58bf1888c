import Nachos.Threads.Program

/-!
# The interrupt level

The interrupt level is one variable, and the levels that the routines have saved lie
on the stacks of many threads. `Levels fs l` reads off a stack `fs` the level `l` that
its thread has to find when it goes on: a routine that has turned interrupts off finds
them off, a call finds the level that it has to hand back, and the own code of a thread
finds them on. `Leveled` says that the machine agrees with it, for the current thread with
its level and for every other thread with interrupts off, and every step keeps it.

A handler runs in one step of the machine. `fire` is the same step with the calls of
`SetLevel` that its `V` makes written out, and with the assertions on the way.
-/

namespace Nachos

open Lib



/-- A thread with the stack `fs` goes on at the level `l`. -/
inductive Levels {ρ : Type} : List (Frame ρ) → IntStatus → Prop
  | own : Levels [] .intOn
  | call (o) {fs l} (h : Levels fs l) : Levels (.call o :: fs) l
  | setLevel {fs now} (h : Levels fs now) : Levels (.setLevel now :: fs) .intOff
  | oneTick {fs} (h : Levels fs .intOn) : Levels (.oneTick :: fs) .intOn
  | firing {fs} (h : Levels fs .intOn) : Levels (.firing :: fs) .intOff
  | sleepLoop {fs} (h : Levels fs .intOff) : Levels (.sleepLoop :: fs) .intOff
  | afterSwitch {fs} (h : Levels fs .intOff) : Levels (.afterSwitch :: fs) .intOff
  | pRetest (s) {fs} (h : Levels fs .intOff) : Levels (.pRetest s :: fs) .intOff
  | acquireRetest (l) {fs} (h : Levels fs .intOff) : Levels (.acquireRetest l :: fs) .intOff
  | acquireReturn (l) {fs lv} (h : Levels fs lv) : Levels (.acquireReturn l :: fs) lv
  | waitEnqueue (c l) {fs old} (h : Levels fs old) : Levels (.waitEnqueue c l old :: fs) .intOff
  | waitWoken (c l) {fs old} (h : Levels fs old) : Levels (.waitWoken c l old :: fs) .intOff
  | waitReturn (c l) {fs lv} (h : Levels fs lv) : Levels (.waitReturn c l :: fs) lv
  -- `Finish` does not return, so the level below it is never found
  | finishLoop (fs) : Levels (.finishLoop :: fs) .intOff
  | finishDone (fs) : Levels (.finishDone :: fs) .intOff
  | finished (fs) : Levels (.finished :: fs) .intOff
  | joinBody (t) {fs lv} (h : Levels fs lv) : Levels (.joinBody t :: fs) lv
  | joinReturn (t) {fs lv} (h : Levels fs lv) : Levels (.joinReturn t :: fs) lv

/-- A stack has one level. -/
theorem Levels.unique {ρ : Type} {fs : List (Frame ρ)} {l l' : IntStatus} (h : Levels fs l)
    (h' : Levels fs l') : l = l' := by
  induction h generalizing l' with
  | call o h ih =>
      cases h'
      exact ih ‹_›
  | acquireReturn l h ih =>
      cases h'
      exact ih ‹_›
  | waitReturn c l h ih =>
      cases h'
      exact ih ‹_›
  | joinBody t h ih =>
      cases h'
      exact ih ‹_›
  | joinReturn t h ih =>
      cases h'
      exact ih ‹_›
  | _ =>
      cases h'
      rfl

/-- The frames that run with interrupts off, whatever lies below them. -/
def Frame.isOff {ρ : Type} : Frame ρ → Bool
  | .setLevel _ => true
  | .firing => true
  | .sleepLoop => true
  | .afterSwitch => true
  | .pRetest _ => true
  | .acquireRetest _ => true
  | .waitEnqueue _ _ _ => true
  | .waitWoken _ _ _ => true
  | .finishLoop => true
  | .finishDone => true
  | _ => false

theorem Levels.off {ρ : Type} {f : Frame ρ} {fs : List (Frame ρ)} {l : IntStatus}
    (h : Levels (f :: fs) l) (hf : f.isOff = true) : l = .intOff := by
  cases h <;> first | rfl | cases hf

/-- The calls that hand back the level they are made at. -/
def Call.restores {ρ : Type} : Call ρ → Bool
  | .P _ => true
  | .V _ => true
  | .acquire _ => true
  | .release _ => true
  | .wait _ _ => true
  | .yield => true
  | _ => false

namespace Kernel

variable {ρ δ α : Type}

/-- Every thread finds the level it has to find: the current one now, the others when they
are switched to. -/
structure Leveled (k : Kernel ρ δ) : Prop where
  current : Levels (k.stack k.currentThread) k.level
  parked : ∀ t, t ≠ k.currentThread → t < k.numThreads → Levels (k.stack t) .intOff

/-- The current thread has gone on to the stack `g`. -/
theorem leveled_of_stack {k k' : Kernel ρ δ} {g : List (Frame ρ)}
    (hparked : ∀ t, t ≠ k.currentThread → t < k.numThreads → Levels (k.stack t) .intOff)
    (hcur : k'.currentThread = k.currentThread) (hnum : k'.numThreads = k.numThreads)
    (hstack : k'.stack = Function.update k.stack k.currentThread g) (h : Levels g k'.level) :
    k'.Leveled := by
  refine ⟨?_, ?_⟩
  · rw [hcur, hstack, Function.update_self]
    exact h
  · intro t ht htn
    rw [hcur] at ht
    rw [hnum] at htn
    rw [hstack, Function.update_of_ne ht]
    exact hparked t ht htn

/-- The CPU is given to the thread `t`, with interrupts off. -/
theorem leveled_run {k : Kernel ρ δ} {t : Tid}
    (hparked : ∀ t, t ≠ k.currentThread → t < k.numThreads → Levels (k.stack t) .intOff)
    (hoff : k.level = .intOff) (hcur : Levels (k.stack k.currentThread) .intOff)
    (ht : t < k.numThreads) : (k.run t).Leveled := by
  have hold : Levels ((k.run t).stack k.currentThread) .intOff := by
    simp only [run_stack, Function.update_self]
    exact .afterSwitch hcur
  have hother : ∀ u, u ≠ k.currentThread → (k.run t).stack u = k.stack u := by
    intro u hu
    simp [hu]
  refine ⟨?_, ?_⟩
  · rw [run_level, hoff, run_currentThread]
    by_cases htc : t = k.currentThread
    · rw [htc] at hold ⊢
      exact hold
    · rw [hother t htc]
      exact hparked t htc ht
  · intro u _ hun
    by_cases huc : u = k.currentThread
    · rw [huc]
      exact hold
    · rw [hother u huc]
      exact hparked u huc hun

theorem leveled_pLoop {k k' : Kernel ρ δ} {s : ℕ} {fs : List (Frame ρ)}
    (hparked : ∀ t, t ≠ k.currentThread → t < k.numThreads → Levels (k.stack t) .intOff)
    (hs : k.stack k.currentThread = fs) (hoff : k.level = .intOff) (hfs : Levels fs .intOff)
    (h : k.pLoop s = .ok k') : k'.Leveled := by
  unfold pLoop at h
  split at h
  · simp only [sleep, assertThen_ok, Except.ok.injEq] at h
    obtain ⟨-, rfl⟩ := h
    refine leveled_of_stack (g := .sleepLoop :: .pRetest s :: fs) hparked rfl rfl ?_ ?_
    · simp [hs]
    · simp only [push_level, setStatus_level, insert_level, hoff]
      exact .sleepLoop (.pRetest s hfs)
  · cases h
    refine leveled_of_stack (g := fs) hparked rfl rfl ?_ ?_
    · simp [← hs]
    · simpa [hoff] using hfs

theorem leveled_acquireLoop {k k' : Kernel ρ δ} {l : Obj} {fs : List (Frame ρ)}
    (hparked : ∀ t, t ≠ k.currentThread → t < k.numThreads → Levels (k.stack t) .intOff)
    (hs : k.stack k.currentThread = fs) (hoff : k.level = .intOff) (hfs : Levels fs .intOff)
    (h : k.acquireLoop l = .ok k') : k'.Leveled := by
  unfold acquireLoop at h
  split at h
  · simp only [sleep, assertThen_ok, Except.ok.injEq] at h
    obtain ⟨-, rfl⟩ := h
    refine leveled_of_stack (g := .sleepLoop :: .acquireRetest l :: fs) hparked rfl rfl ?_ ?_
    · simp [hs]
    · simp only [push_level, setStatus_level, insert_level, hoff]
      exact .sleepLoop (.acquireRetest l hfs)
  · cases h
    refine leveled_of_stack (g := fs) hparked rfl rfl ?_ ?_
    · simp [← hs]
    · simpa [hoff] using hfs

/-- A change that leaves the stacks and the level alone. -/
theorem Leveled.congr {k k' : Kernel ρ δ} (h : k.Leveled) (hstack : k'.stack = k.stack)
    (hlevel : k'.level = k.level) (hcur : k'.currentThread = k.currentThread)
    (hnum : k'.numThreads = k.numThreads) : k'.Leveled := by
  refine ⟨?_, ?_⟩
  · rw [hstack, hlevel, hcur]
    exact h.current
  · rw [hstack, hcur, hnum]
    exact h.parked

theorem Leveled.wakeOne {k : Kernel ρ δ} (h : k.Leveled) (q : QueueId) : (k.wakeOne q).Leveled := by
  obtain ⟨st, qu, hk⟩ := k.wakeOne_eq q
  rw [hk]
  exact h.congr rfl rfl rfl rfl

/-- A routine that turns interrupts off and has to put the level back. -/
theorem Leveled.disable_push {k : Kernel ρ δ} (h : k.Leveled) :
    (k.disable.push (.setLevel k.level)).Leveled :=
  leveled_of_stack h.parked rfl rfl rfl (.setLevel h.current)

theorem Placed.front_lt {k : Kernel ρ δ} (h : k.Placed) {e : Keyed Tid} {es : List (Keyed Tid)}
    (hq : k.queue .readyList = e :: es) : e.item < k.numThreads := by
  by_contra hlt
  have hst := (h.created e.item).2 (not_lt.1 hlt)
  rw [h.ready_of_front hq] at hst
  cases hst

theorem Leveled.yield {k : Kernel ρ δ} (h : k.Leveled) (hp : k.Awake) : k.yield.Leveled := by
  unfold Kernel.yield findNextToRun remove
  cases hq : k.disable.queue .readyList with
  | nil => exact h.disable_push
  | cons e es =>
      refine leveled_run (t := e.item) ?_ rfl ?_ (hp.front_lt hq)
      · intro u hu hun
        have hu' : u ≠ k.currentThread := hu
        simpa [hu'] using h.parked u hu hun
      · simpa using Levels.setLevel h.current

theorem Leveled.fork {k k' : Kernel ρ δ} {t : Tid} {join : ℤ} {start : ρ} (h : k.Leveled)
    (hp : k.Placed) (hk' : k.fork t join start = .ok k') : k'.Leveled := by
  unfold Kernel.fork at hk'
  split at hk'
  · rename_i ht
    cases hk'
    have hne : k.currentThread ≠ t := by
      rw [ht]
      exact hp.current_lt.ne
    refine ⟨?_, ?_⟩
    · simpa [hne] using Levels.setLevel h.current
    · intro u hu hun
      have hu' : u ≠ k.currentThread := hu
      by_cases hut : u = t
      · subst hut
        simpa [hu'] using Levels.setLevel (.own (ρ := ρ))
      · have hlt : u < k.numThreads := lt_of_le_of_ne (Nat.lt_succ_iff.1 hun) (ht ▸ hut)
        simpa [hu', hut] using h.parked u hu' hlt
  · cases hk'

/-- Every call keeps the levels; the tick of a program is made with interrupts on. -/
theorem Leveled.exec {k k' : Kernel ρ δ} {o : Call ρ} (h : k.Leveled) (hp : k.Awake)
    (htick : o = .oneTick → k.level = .intOn) (hk' : k.exec o = .ok k') : k'.Leveled := by
  have hdis := h.disable_push
  cases o with
  | P s =>
      refine leveled_pLoop hdis.parked rfl rfl ?_ hk'
      exact hdis.current
  | V s =>
      cases hk'
      obtain ⟨st, qu, hv⟩ := (k.disable.push (.setLevel k.level)).vBody_eq s
      rw [Kernel.semV, hv]
      exact hdis.congr rfl rfl rfl rfl
  | acquire l =>
      simp only [Kernel.exec, acquire, assertThen_ok] at hk'
      have hacq : ((k.disable.push (.acquireReturn l)).push (.setLevel k.level)).Leveled := by
        refine leveled_of_stack h.parked rfl rfl ?_ (.setLevel (.acquireReturn l h.current))
        simp
      refine leveled_acquireLoop hacq.parked rfl rfl ?_ hk'.2
      exact hacq.current
  | release l =>
      simp only [Kernel.exec, release, assertThen_ok, Except.ok.injEq] at hk'
      obtain ⟨-, rfl⟩ := hk'
      have hnote : ((k.disable.push (.setLevel k.level)).note
          (.releaseCalled l k.currentThread)).Leveled := hdis.congr rfl rfl rfl rfl
      exact (hnote.wakeOne (.lock l)).congr rfl rfl rfl rfl
  | wait c l =>
      simp only [Kernel.exec, wait, assertThen_ok, Except.ok.injEq] at hk'
      obtain ⟨-, rfl⟩ := hk'
      refine leveled_of_stack h.parked rfl rfl ?_ (.call (.release l) (.waitEnqueue c l h.current))
      simp
  | signal c l =>
      simp only [Kernel.exec, signal, assertThen_ok, Except.ok.injEq] at hk'
      obtain ⟨-, rfl⟩ := hk'
      obtain ⟨st, qu, lg, hk⟩ := k.signalOne_eq c
      rw [hk]
      exact h.congr rfl rfl rfl rfl
  | broadcast c l =>
      simp only [Kernel.exec, broadcast, assertThen_ok, Except.ok.injEq] at hk'
      obtain ⟨-, rfl⟩ := hk'
      obtain ⟨st, qu, lg, hk⟩ := k.broadcastLoop_eq c (k.queue (.condition c)).length
      rw [hk]
      exact h.congr rfl rfl rfl rfl
  | yield =>
      cases hk'
      exact h.yield hp
  | fork t join start => exact h.fork hp.toPlaced hk'
  | finish =>
      cases hk'
      refine leveled_of_stack h.parked rfl rfl ?_ (.call (.acquire (.ofThread k.currentThread))
        (.finishLoop (k.stack k.currentThread)))
      simp [finish]
  | join t =>
      simp only [Kernel.exec, joinCall, assertThen_ok, Except.ok.injEq] at hk'
      obtain ⟨-, rfl⟩ := hk'
      refine leveled_of_stack h.parked rfl rfl ?_ (.call (.acquire (.ofThread t))
        (.joinBody t (.joinReturn t h.current)))
      simp
  | setPriority t p =>
      cases hk'
      exact h.congr rfl rfl rfl rfl
  | oneTick =>
      cases hk'
      have hon := htick rfl
      refine leveled_of_stack h.parked rfl rfl rfl ?_
      rw [push_level, hon]
      exact .oneTick (hon ▸ h.current)

theorem Leveled.handle {cl : Client ρ δ α} {k k' : Kernel ρ δ} {a : α} (h : k.Leveled)
    (hk' : handle cl k a = .ok k') : k'.Leveled := by
  obtain ⟨sems, data, -, rfl⟩ := handle_eq hk'
  obtain ⟨st, qu, v, lg, hk⟩ := foldl_vBody_eq { k with data := data } sems
  rw [hk]
  exact h.congr rfl rfl rfl rfl

theorem leveled_setLevel {k : Kernel ρ δ} {now : IntStatus} {fs : List (Frame ρ)}
    (hparked : ∀ t, t ≠ k.currentThread → t < k.numThreads → Levels (k.stack t) .intOff)
    (hs : k.stack k.currentThread = fs) (hfs : Levels fs now) : (k.setLevel now).Leveled := by
  unfold Kernel.setLevel
  split
  · rename_i hnow
    refine leveled_of_stack (g := .oneTick :: fs) hparked rfl rfl ?_ ?_
    · simp [hs]
    · rw [hnow.1] at hfs ⊢
      exact .oneTick hfs
  · refine leveled_of_stack (g := fs) hparked rfl rfl ?_ hfs
    simp [← hs]

/-- Every frame keeps the levels: `fs` is what lies below it. -/
theorem leveled_resume {cl : Client ρ δ α} {k k' : Kernel ρ δ} {f : Frame ρ} {lab : Label α}
    {fs : List (Frame ρ)} {lv : IntStatus}
    (hparked : ∀ t, t ≠ k.currentThread → t < k.numThreads → Levels (k.stack t) .intOff)
    (hs : k.stack k.currentThread = fs) (hlv : k.level = lv) (hf : Levels (f :: fs) lv)
    (hcall : ∀ o, f ≠ .call o) (hlab : ∀ a, lab ≠ .interrupt a)
    (hready : ∀ e es, k.queue .readyList = e :: es → e.item < k.numThreads)
    (hk' : resume cl k f lab = .ok k') : k'.Leveled := by
  -- the frames of this routine are pushed on `fs`, which is the stack already
  have hpush : ∀ {g : List (Frame ρ)} {k' : Kernel ρ δ}, k'.currentThread = k.currentThread →
      k'.numThreads = k.numThreads →
        k'.stack = Function.update k.stack k.currentThread (g ++ k.stack k.currentThread) →
          Levels (g ++ fs) k'.level → k'.Leveled := by
    intro g k' hcur hnum hstack hl
    rw [hs] at hstack
    exact leveled_of_stack hparked hcur hnum hstack hl
  rcases resume_cases hk' with rfl | ⟨rfl, rfl, rfl⟩ | ⟨a, rfl, -⟩
  · cases f with
    | call o => exact absurd rfl (hcall o)
    | setLevel now =>
        cases hk'
        cases hf
        exact leveled_setLevel hparked hs ‹_›
    | oneTick =>
        cases hk'
        cases hf
        exact hpush (g := [.firing]) rfl rfl (by simp) (.firing ‹_›)
    | firing =>
        cases hk'
        cases hf
        exact hpush (g := []) rfl rfl (by simp) ‹_›
    | sleepLoop =>
        obtain ⟨e, es, hq, rfl⟩ := sleepLoop_go hk'
        cases hf
        refine leveled_run (k := k.setQueue .readyList es) hparked hlv ?_ (hready e es hq)
        simpa [hs] using ‹Levels fs .intOff›
    | afterSwitch =>
        cases hf
        rcases afterSwitch_cases hk' with ⟨-, rfl⟩ | ⟨t, -, rfl⟩
        · exact hpush (g := []) rfl rfl (by simp) (hlv ▸ ‹_›)
        · exact hpush (g := []) rfl rfl (by simp) (hlv ▸ ‹_›)
    | pRetest s =>
        cases hf
        exact leveled_pLoop hparked hs hlv ‹_› hk'
    | acquireRetest l =>
        cases hf
        exact leveled_acquireLoop hparked hs hlv ‹_› hk'
    | acquireReturn l =>
        cases hk'
        cases hf
        exact hpush (g := []) rfl rfl (by simp) (hlv ▸ ‹_›)
    | waitEnqueue c l old =>
        simp only [resume, waitEnqueue, sleep, assertThen_ok, Except.ok.injEq] at hk'
        obtain ⟨-, rfl⟩ := hk'
        cases hf
        refine hpush (g := [.sleepLoop, .waitWoken c l old]) rfl rfl (by simp) ?_
        simp only [push_level, setStatus_level, note_level, insert_level, hlv]
        exact .sleepLoop (.waitWoken c l ‹_›)
    | waitWoken c l old =>
        cases hk'
        cases hf
        refine hpush (g := [.setLevel old, .call (.acquire l), .waitReturn c l]) rfl rfl
          (by simp [waitWoken]) ?_
        simp only [waitWoken, push_level, hlv]
        exact .setLevel (.call (.acquire l) (.waitReturn c l ‹_›))
    | waitReturn c l =>
        simp only [resume, assertThen_ok, Except.ok.injEq] at hk'
        obtain ⟨-, rfl⟩ := hk'
        cases hf
        exact hpush (g := []) rfl rfl (by simp) (hlv ▸ ‹_›)
    | finishLoop =>
        cases hk'
        cases hf
        unfold finishLoop
        split
        · refine hpush (g := [.call (.signal _ _), .call (.wait _ _), .call (.signal _ _),
            .finishLoop]) rfl rfl (by simp; rfl) ?_
          simp only [push_level, hlv]
          exact .call _ (.call _ (.call _ (.finishLoop fs)))
        · split
          · refine hpush (g := [.call (.signal _ _), .call (.wait _ _), .call (.release _),
              .finishDone]) rfl rfl (by simp; rfl) ?_
            simp only [push_level, hlv]
            exact .call _ (.call _ (.call _ (.finishDone fs)))
          · refine hpush (g := [.call (.signal _ _), .call (.release _), .finishDone]) rfl rfl
              (by simp; rfl) ?_
            simp only [push_level, hlv]
            exact .call _ (.call _ (.finishDone fs))
    | finishDone =>
        simp only [resume, finishDone, sleep, assertThen_ok, Except.ok.injEq] at hk'
        obtain ⟨-, rfl⟩ := hk'
        cases hf
        refine hpush (g := [.sleepLoop, .finished]) rfl rfl (by simp) ?_
        simp only [push_level, setStatus_level, note_level, hlv]
        exact .sleepLoop (.finished fs)
    | finished => cases hk'
    | joinBody t =>
        cases hk'
        cases hf
        refine hpush (g := [.call (.signal (.ofThread t) (.ofThread t)),
          .call (.wait (.ofThread t) (.ofThread t)), .call (.signal (.ofThread t) (.ofThread t)),
          .call (.release (.ofThread t))]) rfl rfl (by simp [joinBody]) ?_
        exact .call _ (.call _ (.call _ (.call _ (hlv ▸ ‹_›))))
    | joinReturn t =>
        cases hk'
        cases hf
        exact hpush (g := []) rfl rfl (by simp) (hlv ▸ ‹_›)
  · cases hf
    exact hpush (g := [.call .yield]) rfl rfl (by simp) (.call .yield ‹_›)
  · exact absurd rfl (hlab a)

theorem Leveled.step {cl : Client ρ δ α} {k k' : Kernel ρ δ} {lab : Label α} (h : k.Leveled)
    (hp : k.Placed) (hinner : ∀ t o, .call o ∈ k.stack t → o.isInner = true)
    (hk' : Kernel.step cl k lab = .ok k') : k'.Leveled := by
  rcases step_cases hk' with ⟨o, k₀, hi, he⟩ | ⟨f, rest, hs, hcall, hr⟩
  · have hawake := hi.awake hp
    cases hi with
    | own a o pc data hs hnext ho =>
        have h₀ : (k.advance pc data).Leveled := h.congr rfl rfl rfl rfl
        refine h₀.exec hawake ?_ he
        intro _
        have hown := h.current
        rw [hs] at hown
        exact hown.unique .own
    | inner o rest hs =>
        have hcur := h.current
        rw [hs] at hcur
        cases hcur with
        | call o hrest =>
            have h₀ : (k.setStack rest).Leveled := leveled_of_stack h.parked rfl rfl rfl hrest
            refine h₀.exec hawake ?_ he
            rintro rfl
            cases hinner k.currentThread _ (hs ▸ List.mem_cons_self)
  · by_cases hlab : ∃ a, lab = .interrupt a
    · obtain ⟨a, rfl⟩ := hlab
      exact h.handle (resume_interrupt hs hr)
    · have hf := h.current
      rw [hs] at hf
      refine leveled_resume (k := k.setStack rest) ?_ (by simp) rfl hf hcall
        (fun a ha => hlab ⟨a, ha⟩) (fun e es hq => hp.front_lt hq) hr
      intro t ht htn
      have ht' : t ≠ k.currentThread := ht
      simpa [ht'] using h.parked t ht htn

theorem Runs.leveled {cl : Client ρ δ α} {start : ρ} {data : δ} {initialValue : ℕ → ℤ}
    {k : Kernel ρ δ} (h : Runs cl start data initialValue k) : k.Leveled := by
  refine Reachable.invariant (I := Leveled) ?_ ?_ h
  · refine ⟨.own, ?_⟩
    intro t ht htn
    exact absurd (Nat.lt_one_iff.1 htn) ht
  · intro k lab k' hk hi hs
    exact hi.step (Runs.placed hk) (Runs.inner hk) hs

/-! ## The assertions on the level -/

/-- The step reaches `SWITCH`, and leaves the thread that was running behind it. -/
def Switches (k k' : Kernel ρ δ) : Prop :=
  ∃ rest, k'.stack k.currentThread = .afterSwitch :: rest

theorem Leveled.switches {cl : Client ρ δ α} {k k' : Kernel ρ δ} {lab : Label α} (h : k.Leveled)
    (h' : k'.Leveled) (hp : k.Placed) (hp' : k'.Placed) (hk' : Kernel.step cl k lab = .ok k')
    (hsw : Switches k k') : k'.level = .intOff := by
  obtain ⟨rest, hrest⟩ := hsw
  by_cases hcur : k'.currentThread = k.currentThread
  · have hlv := h'.current
    rw [hcur, hrest] at hlv
    exact hlv.off rfl
  · -- the thread that is switched to finds the level that it was left with
    obtain ⟨fs, -, hstack, hnum, -⟩ := step_stack hp.current_lt hk'
    have hlv := h'.current
    rw [hstack, Function.update_of_ne hcur, grown] at hlv
    split at hlv
    · exact hlv.unique (.setLevel .own)
    · rename_i hold
      refine hlv.unique (h.parked _ hcur ?_)
      by_contra hlt
      exact hold ⟨not_lt.1 hlt, hp'.current_lt⟩

/-- In the step with the label `lab`, `Thread::Sleep` is called in the state `k₁`. -/
inductive CallsSleep (cl : Client ρ δ α) (k : Kernel ρ δ) : Label α → Kernel ρ δ → Prop
  | P (lab s k₀) (h : Issues cl k lab (.P s) k₀) (hv : k₀.value s = 0) :
      CallsSleep cl k lab (((k₀.disable.push (.setLevel k₀.level)).insert (.semaphore s)
        k₀.currentThread).push (.pRetest s))
  | pRetest (s rest) (hs : k.stack k.currentThread = .pRetest s :: rest) (hv : k.value s = 0) :
      CallsSleep cl k .go (((k.setStack rest).insert (.semaphore s) k.currentThread).push
        (.pRetest s))
  | acquire (lab l k₀) (h : Issues cl k lab (.acquire l) k₀) (hl : k₀.locked l = true)
      (hme : k₀.threadHeld l ≠ some k₀.currentThread) :
      CallsSleep cl k lab ((((k₀.disable.push (.acquireReturn l)).push (.setLevel k₀.level)).insert
        (.lock l) k₀.currentThread).push (.acquireRetest l))
  | acquireRetest (l rest) (hs : k.stack k.currentThread = .acquireRetest l :: rest)
      (hl : k.locked l = true) :
      CallsSleep cl k .go (((k.setStack rest).insert (.lock l) k.currentThread).push
        (.acquireRetest l))
  | waitEnqueue (c l old rest) (hs : k.stack k.currentThread = .waitEnqueue c l old :: rest) :
      CallsSleep cl k .go ((((k.setStack rest).insert (.condition c) k.currentThread).note
        (.waitQueued c k.currentThread)).push (.waitWoken c l old))
  | finishDone (rest) (hs : k.stack k.currentThread = .finishDone :: rest) :
      CallsSleep cl k .go (({ k.setStack rest with
        threadToBeDestroyed := some k.currentThread }.note (.finishCompleted k.currentThread)).push
          .finished)

theorem Issues.step_eq {cl : Client ρ δ α} {k k₀ : Kernel ρ δ} {lab : Label α} {o : Call ρ}
    (h : Issues cl k lab o k₀) : step cl k lab = k₀.exec o := by
  cases h with
  | own a o pc data hs hnext ho => simp [step, act, hs, hnext, ho]
  | inner o rest hs => simp [step, resume, hs]

/-- The step ends with this call of `Sleep`. -/
theorem CallsSleep.step_eq {cl : Client ρ δ α} {k k₁ : Kernel ρ δ} {lab : Label α}
    (h : CallsSleep cl k lab k₁) : step cl k lab = k₁.sleep := by
  cases h with
  | P lab s k₀ h hv =>
      rw [h.step_eq]
      simp [exec, semP, pLoop, hv]
  | pRetest s rest hs hv => simp [step, resume, pLoop, hs, hv]
  | acquire lab l k₀ h hl hme =>
      rw [h.step_eq]
      simp [exec, Kernel.acquire, acquireLoop, assertThen, hl, hme]
  | acquireRetest l rest hs hl => simp [step, resume, acquireLoop, hs, hl]
  | waitEnqueue c l old rest hs => simp [step, resume, Kernel.waitEnqueue, hs]
  | finishDone rest hs =>
      simp only [step, resume, hs]
      rfl

theorem Leveled.callsSleep {cl : Client ρ δ α} {k k₁ : Kernel ρ δ} {lab : Label α} (h : k.Leveled)
    (hk₁ : CallsSleep cl k lab k₁) : k₁.level = .intOff := by
  have hcur := h.current
  cases hk₁ with
  | P lab s k₀ h hv => rfl
  | acquire lab l k₀ h hl hme => rfl
  | pRetest s rest hs hv =>
      rw [hs] at hcur
      exact hcur.off rfl
  | acquireRetest l rest hs hl =>
      rw [hs] at hcur
      exact hcur.off rfl
  | waitEnqueue c l old rest hs =>
      rw [hs] at hcur
      exact hcur.off rfl
  | finishDone rest hs =>
      rw [hs] at hcur
      exact hcur.off rfl

/-- `Interrupt::CheckIfDue` is called: in the loop of `OneTick`, or in `Idle` because nobody
is ready. -/
def ChecksDue (k : Kernel ρ δ) : Prop :=
  (∃ rest, k.stack k.currentThread = .firing :: rest) ∨
    (∃ rest, k.stack k.currentThread = .sleepLoop :: rest) ∧ k.queue .readyList = []

theorem Leveled.checksDue {k : Kernel ρ δ} (h : k.Leveled) (hdue : ChecksDue k) :
    k.level = .intOff := by
  have hcur := h.current
  rcases hdue with ⟨rest, hs⟩ | ⟨⟨rest, hs⟩, -⟩
  · rw [hs] at hcur
    exact hcur.off rfl
  · rw [hs] at hcur
    exact hcur.off rfl

/-- `Interrupt::SetLevel` with its assertion. -/
def setLevelIn (inHandler : Bool) (k : Kernel ρ δ) (now : IntStatus) : Except Stop (Kernel ρ δ) :=
  assertThen (now = .intOff ∨ inHandler = false) <| .ok (k.setLevel now)

/-- `Semaphore::V`, called by a handler. -/
def handlerV (k : Kernel ρ δ) (s : ℕ) : Except Stop (Kernel ρ δ) :=
  match k.setLevelIn true .intOff with
  | .error e => .error e
  | .ok k' => (k'.vBody s).setLevelIn true k.level

/-- The `V` calls of a handler, one after the other. -/
def handlerVs : List ℕ → Kernel ρ δ → Except Stop (Kernel ρ δ)
  | [], k => .ok k
  | s :: sems, k =>
      match k.handlerV s with
      | .error e => .error e
      | .ok k' => handlerVs sems k'

/-- `Interrupt::CheckIfDue` for an interrupt that is due. -/
def fire (cl : Client ρ δ α) (k : Kernel ρ δ) (a : α) : Except Stop (Kernel ρ δ) :=
  assertThen (k.level = .intOff) <|
    match cl.handler a k.data with
    | none => .error .disabled
    | some (sems, data) => handlerVs sems { k with data := data }

theorem vBody_level (k : Kernel ρ δ) (s : ℕ) : (k.vBody s).level = k.level := by
  obtain ⟨st, qu, h⟩ := k.vBody_eq s
  rw [h]

theorem handlerV_eq {k : Kernel ρ δ} (hoff : k.level = .intOff) (s : ℕ) :
    k.handlerV s = .ok (k.vBody s) := by
  have hset : ∀ k : Kernel ρ δ, k.level = .intOff → k.setLevel .intOff = k := by
    rintro ⟨⟩ rfl
    simp [Kernel.setLevel]
  have hV := (k.vBody_level s).trans hoff
  simp [handlerV, setLevelIn, assertThen, hoff, hset k hoff, hset _ hV]

theorem handlerVs_eq {k : Kernel ρ δ} (hoff : k.level = .intOff) (sems : List ℕ) :
    handlerVs sems k = .ok (sems.foldl vBody k) := by
  induction sems generalizing k with
  | nil => rfl
  | cons s sems ih =>
      simp only [handlerVs, handlerV_eq hoff, List.foldl_cons]
      exact ih ((k.vBody_level s).trans hoff)

/-- With interrupts off, the handler makes the step of the machine and no assertion of
`CheckIfDue` and `SetLevel` fails. -/
theorem fire_eq_handle {cl : Client ρ δ α} {k : Kernel ρ δ} (hoff : k.level = .intOff) (a : α) :
    fire cl k a = handle cl k a := by
  unfold fire handle assertThen
  rw [if_pos hoff]
  cases cl.handler a k.data with
  | none => rfl
  | some x => exact handlerVs_eq (k := { k with data := x.2 }) hoff x.1

theorem handle_ne_assertion (cl : Client ρ δ α) (k : Kernel ρ δ) (a : α) :
    handle cl k a ≠ .error .assertion := by
  unfold handle
  split <;> simp

theorem handle_level {cl : Client ρ δ α} {k k' : Kernel ρ δ} {a : α}
    (h : handle cl k a = .ok k') : k'.level = k.level := by
  obtain ⟨sems, data, -, rfl⟩ := handle_eq h
  obtain ⟨st, qu, v, lg, hk⟩ := foldl_vBody_eq { k with data := data } sems
  rw [hk]

theorem Leveled.returns {cl : Client ρ δ α} {k k₀ k' : Kernel ρ δ} {lab : Label α} {o : Call ρ}
    (h : k.Leveled) (h' : k'.Leveled) (hi : Issues cl k lab o k₀)
    (hs : k'.stack k'.currentThread = k₀.stack k₀.currentThread) : k'.level = k.level := by
  have hlv := h'.current
  rw [hs] at hlv
  have hcur := h.current
  cases hi with
  | own a o pc data hown hnext ho => exact hlv.unique hcur
  | inner o rest hcall =>
      rw [hcall] at hcur
      cases hcur with
      | call o hrest => exact hlv.unique (by simpa using hrest)

/-- The interrupt level in every run of every program. A call returns when the thread that
made it runs again with what it had left to do below the call. -/
theorem level_discipline (cl : Client ρ δ α) (start : ρ) (data : δ) (initialValue : ℕ → ℤ)
    (k : Kernel ρ δ) (h : Runs cl start data initialValue k) :
    (∀ lab o k₀ as k', Issues cl k lab o k₀ → o.restores = true →
      runFrom (step cl) k (lab :: as) = .ok k' → k'.currentThread = k.currentThread →
        k'.stack k'.currentThread = k₀.stack k₀.currentThread → k'.level = k.level) ∧
      (∀ lab k', step cl k lab = .ok k' → Switches k k' → k'.level = .intOff) ∧
        (∀ lab k₁, CallsSleep cl k lab k₁ → k₁.level = .intOff) ∧
          (ChecksDue k → k.level = .intOff ∧ ∀ a, fire cl k a ≠ .error .assertion ∧
            ∀ k', fire cl k a = .ok k' → k'.level = k.level) := by
  have hl := h.leveled
  refine ⟨?_, ?_, ?_, ?_⟩
  · intro lab o k₀ as k' hi _ hrun _ hs
    obtain ⟨bs, hbs⟩ := h
    have hk' : Runs cl start data initialValue k' :=
      ⟨bs ++ (lab :: as), (runFrom_append_ok _ _ _ _ _).2 ⟨k, hbs, hrun⟩⟩
    exact hl.returns hk'.leveled hi hs
  · intro lab k' hs hsw
    have hk' : Runs cl start data initialValue k' := h.tail hs
    exact hl.switches hk'.leveled h.placed hk'.placed hs hsw
  · exact fun lab k₁ hk₁ => hl.callsSleep hk₁
  · intro hdue
    have hoff := hl.checksDue hdue
    refine ⟨hoff, fun a => ?_⟩
    rw [fire_eq_handle hoff]
    exact ⟨handle_ne_assertion cl k a, fun k' hk' => handle_level hk'⟩

/-- The main thread calls `P` and sleeps until the other one calls `V`. -/
def handedOver : Tid → ℕ → Option (Call ℕ)
  | 0, 0 => some (.fork 1 0 0)
  | 0, _ => some (.P 0)
  | _, 0 => some (.V 0)
  | _, _ => some .yield

/-- When it is back in its own code, interrupts are on as before. -/
theorem level_discipline_P :
    ∃ k k', Runs (scripted handedOver) 0 () (fun _ => 0) k ∧
      runFrom (step (scripted handedOver)) k (turns [((), 4), ((), 3), ((), 5)]) = .ok k' ∧
        k.stack 0 = [] ∧ k'.currentThread = 0 ∧ k'.stack 0 = [] ∧ k'.level = .intOn := by
  have hpass : passes (step (scripted handedOver)) (init 0 () fun _ => 0) (turns [((), 3)])
      (fun k => k.currentThread = 0 && (k.stack 0).isEmpty && k.pc 0 = 1 && k.level = .intOn &&
        passes (step (scripted handedOver)) k (turns [((), 4), ((), 3), ((), 5)])
          fun k' => k'.currentThread = 0 && (k'.stack 0).isEmpty) = true := by
    decide +kernel
  obtain ⟨k, hk, hend⟩ := exists_of_passes _ hpass
  simp only [Bool.and_eq_true, decide_eq_true_eq, List.isEmpty_iff] at hend
  obtain ⟨⟨⟨⟨hcur, hstack⟩, hpc⟩, hlevel⟩, hpass'⟩ := hend
  obtain ⟨k', hrun, hend'⟩ := runFrom_of_passes hpass'
  simp only [Bool.and_eq_true, decide_eq_true_eq, List.isEmpty_iff] at hend'
  obtain ⟨hcur', hstack'⟩ := hend'
  have hissues : Issues (scripted handedOver) k (.act ()) (.P 0) (k.advance 2 ()) := by
    refine .own () (.P 0) 2 () (hcur ▸ hstack) ?_ rfl
    rw [hcur, hpc]
    rfl
  have hsame : k'.stack k'.currentThread = k.stack k.currentThread := by
    rw [hcur, hcur', hstack, hstack']
  refine ⟨k, k', hk, hrun, hstack, hcur', hstack', hlevel ▸ ?_⟩
  exact (level_discipline _ _ _ _ k hk).1 _ _ _ _ k' hissues rfl hrun (hcur'.trans hcur.symm) hsame

end Kernel

end Nachos
