import Nachos.Lib.Count
import Nachos.Threads.Condition
import Nachos.Threads.Program

/-!
# Monitors

What a program that uses locks and conditions sees of the kernel: where its threads are in
their own code, the data, and who is asleep on which condition. A thread counts as asleep
from its call of `Wait` on, since nothing else runs before it is on `waitQ`. Every step of
the kernel is a `Turn` of one thread, from the return of a kernel call to its next one, or leaves
the monitor alone, so that an invariant of the monitor is shown of turns only.
-/

namespace Nachos

open Lib



structure Monitor (ρ δ : Type) where
  numThreads : ℕ
  pc : Tid → ρ
  data : δ
  asleep : ℕ → Set Tid

/-- The threads that do not exist yet are at the start of their code. -/
def Monitor.Fresh {ρ δ : Type} (idle : ρ) (s : Monitor ρ δ) : Prop :=
  ∀ t, s.numThreads ≤ t → s.pc t = idle

/-- The thread is at one of the places `P`, and not asleep on `c`. -/
def Monitor.Up {ρ δ : Type} (c : ℕ) (P : ρ → Prop) (s : Monitor ρ δ) (t : Tid) : Prop :=
  P (s.pc t) ∧ t ∉ s.asleep c

noncomputable instance {ρ δ : Type} (c : ℕ) (P : ρ → Prop) (s : Monitor ρ δ) :
    DecidablePred (s.Up c P) := Classical.decPred _

/-- The number of these threads. -/
noncomputable def Monitor.up {ρ δ : Type} (c : ℕ) (P : ρ → Prop) (s : Monitor ρ δ) : ℕ :=
  Nat.count (s.Up c P) s.numThreads

/-- The threads that are asleep after the call `o` of `t`. -/
inductive Call.Rouses {ρ : Type} (t : Tid) (asleep : ℕ → Set Tid) : Call ρ → (ℕ → Set Tid) → Prop
  | wait (c : ℕ) (l : Obj) :
      Rouses t asleep (.wait (.user c) l) (Function.update asleep c (insert t (asleep c)))
  | signalNobody (c : ℕ) (l : Obj) (h : asleep c = ∅) : Rouses t asleep (.signal (.user c) l) asleep
  | signal (c : ℕ) (l : Obj) (u : Tid) (h : u ∈ asleep c) :
      Rouses t asleep (.signal (.user c) l) (Function.update asleep c (asleep c \ {u}))
  | broadcast (c : ℕ) (l : Obj) :
      Rouses t asleep (.broadcast (.user c) l) (Function.update asleep c ∅)
  | other (o : Call ρ) (h : ∀ c, o.about ≠ some (.condition (.user c))) : Rouses t asleep o asleep

section

variable {ρ : Type} {t : Tid} {asleep asleep' : ℕ → Set Tid} {o : Call ρ}

/-- Who is asleep has been asleep or calls `Wait`. -/
theorem Call.Rouses.mem (h : o.Rouses t asleep asleep') {c : ℕ} {u : Tid} (hu : u ∈ asleep' c) :
    u ∈ asleep c ∨ u = t ∧ ∃ l, o = .wait (.user c) l := by
  cases h with
  | wait c' l =>
      by_cases hc : c = c'
      · subst hc
        rw [Function.update_self] at hu
        exact hu.symm.imp_right fun hut => ⟨hut, l, rfl⟩
      · rw [Function.update_of_ne hc] at hu
        exact .inl hu
  | signalNobody c' l h => exact .inl hu
  | signal c' l v h =>
      by_cases hc : c = c'
      · subst hc
        rw [Function.update_self] at hu
        exact .inl hu.1
      · rw [Function.update_of_ne hc] at hu
        exact .inl hu
  | broadcast c' l =>
      by_cases hc : c = c'
      · subst hc
        simp at hu
      · rw [Function.update_of_ne hc] at hu
        exact .inl hu
  | other o h => exact .inl hu

theorem Call.Rouses.eq_of_other (h : o.Rouses t asleep asleep') {c : ℕ}
    (ho : o.about ≠ some (.condition (.user c))) : asleep' c = asleep c := by
  have hne :
      ∀ c' : ℕ, some (QueueId.condition (.user c')) ≠ some (.condition (.user c)) → c ≠ c' := by
    rintro c' hc rfl
    exact hc rfl
  cases h with
  | signalNobody c' l h => rfl
  | other o h => rfl
  | _ => exact Function.update_of_ne (hne _ ho) _ _

end

/-- New threads start at `idle`, and handlers leave the data alone. -/
structure Client.Steady {ρ δ α : Type} (cl : Client ρ δ α) (idle : ρ) : Prop where
  fork : ∀ {t pc d view a c join start pc' d'},
    cl.next t pc d view a = some (.fork c join start, pc', d') → start = idle
  handler : ∀ {a d sems d'}, cl.handler a d = some (sems, d') → d' = d

/-- The own code of `t` up to its next call. -/
structure Monitor.Turn {ρ δ α : Type} (cl : Client ρ δ α) (t : Tid) (a : α) (o : Call ρ) (pc : ρ)
    (s s' : Monitor ρ δ) : Prop where
  lt : t < s.numThreads
  awake : ∀ c, t ∉ s.asleep c
  next : ∃ view, cl.next t (s.pc t) s.data view a = some (o, pc, s'.data)
  pc_eq : s'.pc = Function.update s.pc t pc
  numThreads : s.numThreads ≤ s'.numThreads
  rouses : o.Rouses t s.asleep s'.asleep

namespace Monitor.Turn

variable {ρ δ α : Type} {cl : Client ρ δ α} {t : Tid} {a : α} {o : Call ρ} {pc : ρ}
  {s s' : Monitor ρ δ}

theorem pc_self (h : s.Turn cl t a o pc s') : s'.pc t = pc := by
  rw [h.pc_eq, Function.update_self]

theorem pc_of_ne (h : s.Turn cl t a o pc s') {u : Tid} (hu : u ≠ t) : s'.pc u = s.pc u := by
  rw [h.pc_eq, Function.update_of_ne hu]

/-- A thread that sleeps does not move. -/
theorem pc_of_asleep (h : s.Turn cl t a o pc s') {c : ℕ} {u : Tid} (hu : u ∈ s.asleep c) :
    s'.pc u = s.pc u := by
  refine h.pc_of_ne ?_
  rintro rfl
  exact h.awake c hu

/-- A turn does not reach the threads that do not exist yet. -/
theorem fresh (h : s.Turn cl t a o pc s') {idle : ρ} (hs : s.Fresh idle) (u : Tid)
    (hu : s.numThreads ≤ u) : s'.pc u = idle := by
  rw [h.pc_of_ne (h.lt.trans_le hu).ne']
  exact hs u hu

/-- The number of threads at a place changes with the thread that has the turn. -/
theorem count (h : s.Turn cl t a o pc s') {idle : ρ} (hs : s.Fresh idle) (P : ρ → Prop)
    [DecidablePred P] (hidle : ¬ P idle) :
    Nat.count (fun u => P (s'.pc u)) s'.numThreads + (if P (s.pc t) then 1 else 0) =
      Nat.count (fun u => P (s.pc u)) s.numThreads + (if P pc then 1 else 0) := by
  rw [count_grow h.numThreads fun u hu => by rwa [h.fresh hs u hu]]
  have hchange := count_change (p := fun u => P (s.pc u)) (q := fun u => P (s'.pc u)) h.lt ?_
  · rwa [h.pc_self] at hchange
  · intro u hu
    rw [h.pc_of_ne hu]

variable {c : ℕ} {P : ρ → Prop}

/-- The other threads that are awake stay so. -/
theorem up_of_ne (h : s.Turn cl t a o pc s') {u : Tid} (hu : u ≠ t) (hup : s.Up c P u) :
    s'.Up c P u := by
  refine ⟨(h.pc_of_ne hu).symm ▸ hup.1, ?_⟩
  intro hmem
  rcases h.rouses.mem hmem with hold | ⟨rfl, -⟩
  · exact hup.2 hold
  · exact hu rfl

theorem up_le_succ (h : s.Turn cl t a o pc s') : s.up c P ≤ s'.up c P + 1 :=
  (count_le_succ (q := s'.Up c P) h.lt fun _ hu => h.up_of_ne hu).trans
    (Nat.succ_le_succ (Nat.count_monotone _ h.numThreads))

theorem up_stays (h : s.Turn cl t a o pc s') (hpc : ¬ P (s.pc t)) {u : Tid} (hup : s.Up c P u) :
    s'.Up c P u := by
  refine h.up_of_ne ?_ hup
  rintro rfl
  exact hpc hup.1

theorem up_le (h : s.Turn cl t a o pc s') (hpc : ¬ P (s.pc t)) : s.up c P ≤ s'.up c P :=
  (Nat.count_mono_left (q := s'.Up c P) fun _ _ => h.up_stays hpc).trans
    (Nat.count_monotone _ h.numThreads)

/-- A thread has been woken. -/
theorem succ_up_le (h : s.Turn cl t a o pc s') (hpc : ¬ P (s.pc t)) {u : Tid}
    (hlt : u < s.numThreads) (hu : P (s.pc u)) (hold : u ∈ s.asleep c) (hnew : u ∉ s'.asleep c) :
    s.up c P + 1 ≤ s'.up c P := by
  have hup : s'.Up c P u := ⟨(h.pc_of_asleep hold).symm ▸ hu, hnew⟩
  exact (succ_count_le (p := s.Up c P) (q := s'.Up c P) hlt (fun _ => h.up_stays hpc)
    (fun hup => hup.2 hold) hup).trans (Nat.count_monotone _ h.numThreads)

end Monitor.Turn

namespace Kernel

variable {ρ δ α : Type}

/-- The thread is on `waitQ`, or has released the lock in `Wait` and is about to be on it. -/
def SleepsOn (k : Kernel ρ δ) (c : ℕ) (t : Tid) : Prop :=
  t ∈ (k.queue (.condition (.user c))).map Keyed.item ∨
    ∃ l old, .waitEnqueue (.user c) l old ∈ k.stack t

def monitor (k : Kernel ρ δ) : Monitor ρ δ where
  numThreads := k.numThreads
  pc := k.pc
  data := k.data
  asleep c := {t | k.SleepsOn c t}

variable {k k' : Kernel ρ δ}

theorem sleepsOn_of_same {c : ℕ} (h : Same (.condition (.user c)) k k') (t : Tid) :
    k'.SleepsOn c t ↔ k.SleepsOn c t := by
  unfold SleepsOn
  rw [h.queue]
  simp only [h.mem_stack (f := .waitEnqueue (.user c) _ _) rfl t]

theorem asleep_eq_of_same {c : ℕ} (h : Same (.condition (.user c)) k k') :
    k'.monitor.asleep c = k.monitor.asleep c :=
  Set.ext fun t => sleepsOn_of_same h t

/-- The routines of the kernel do not call `Wait`, `Signal` or `Broadcast` on the conditions of a
program. -/
theorem not_about_of_inner {o : Call ρ} (h : o.isInner = true) (c : ℕ) :
    o.about ≠ some (.condition (.user c)) := by
  cases o with
  | wait c' l => cases c' <;> simp_all [Call.about, Call.isInner]
  | signal c' l => cases c' <;> simp_all [Call.about, Call.isInner]
  | broadcast c' l => cases h
  | _ => simp [Call.about]

/-- The last part of `Wait` before its `Sleep`. -/
theorem sleepsOn_waitEnqueue {c : ℕ} {l : Obj} {old : IntStatus} {rest : List (Frame ρ)}
    (hs : k.stack k.currentThread = .waitEnqueue (.user c) l old :: rest)
    (hr : (k.setStack rest).waitEnqueue (.user c) l old = .ok k') (t : Tid) :
    k'.SleepsOn c t ↔ k.SleepsOn c t := by
  simp only [waitEnqueue, sleep, assertThen_ok, Except.ok.injEq] at hr
  obtain ⟨-, rfl⟩ := hr
  have hq : t ∈ (((k.setStack rest).insert (.condition (.user c)) k.currentThread).queue
      (.condition (.user c))).map Keyed.item ↔
        t = k.currentThread ∨ t ∈ (k.queue (.condition (.user c))).map Keyed.item :=
    mem_insert_queue
  by_cases htc : t = k.currentThread
  · subst htc
    exact iff_of_true (.inl (hq.2 (.inl rfl))) (.inr ⟨l, old, by simp [hs]⟩)
  · unfold SleepsOn
    refine or_congr ?_ ?_
    · exact hq.trans (or_iff_right htc)
    · simp [htc]

/-- A part of a kernel routine changes nothing, since a thread that gets on `waitQ` was asleep
before. -/
theorem monitor_of_quiet {cl : Client ρ δ α} {lab : Label α} (hp : k.Placed) (ht : k.Tidy)
    (hinner : ∀ t o, .call o ∈ k.stack t → o.isInner = true) (hs : step cl k lab = .ok k')
    (hne : k.stack k.currentThread ≠ []) (hq : Quiet k k') : k'.monitor = k.monitor := by
  have hasleep : k'.monitor.asleep = k.monitor.asleep := by
    funext c
    rcases step_object (x := .condition (.user c)) (by simp) ht hp hs with
      hsame | ⟨o, k₀, hi, ho, -⟩ | ⟨f, rest, hfs, hf, hne', hlab, hr⟩ | ⟨a, s, hx, -⟩
    · exact asleep_eq_of_same hsame
    · cases hi with
      | own a o pc data hnil hnext hpub => exact absurd hnil hne
      | inner o rest hfs =>
          exact absurd ho (not_about_of_inner (hinner k.currentThread o (by simp [hfs])) c)
    · cases lab with
      | go =>
          cases f with
          | waitEnqueue c' l old =>
              obtain rfl : c' = .user c := by simpa [Frame.about] using hf
              exact Set.ext fun t => sleepsOn_waitEnqueue hfs hr t
          | waitWoken c' l old =>
              cases hr
              refine Set.ext fun t => or_congr Iff.rfl ?_
              by_cases htc : t = k.currentThread
              · subst htc
                simp [waitWoken, hfs]
              · simp [waitWoken, htc]
          | waitReturn c' l =>
              simp only [resume, assertThen_ok, Except.ok.injEq] at hr
              obtain ⟨-, rfl⟩ := hr
              refine Set.ext fun t => or_congr Iff.rfl ?_
              by_cases htc : t = k.currentThread
              · subst htc
                simp [hfs]
              · simp [htc]
          | _ => simp [Frame.about] at hf
      | interrupt a => exact absurd rfl (hlab a)
      | _ => cases f <;> cases hr <;> simp [Frame.about] at hf
    · cases hx
  simp only [monitor, Monitor.mk.injEq]
  exact ⟨hq.numThreads, hq.pc, hq.data, hasleep⟩

theorem monitor_of_handle {cl : Client ρ δ α} {idle : ρ} (hcl : cl.Steady idle) {a : α}
    (hs : handle cl k a = .ok k') : k'.monitor = k.monitor := by
  obtain ⟨sems, data, hdata, rfl⟩ := handle_eq hs
  obtain rfl := hcl.handler hdata
  have hasleep :
      (sems.foldl vBody { k with data := k.data }).monitor.asleep = k.monitor.asleep := by
    funext c
    exact asleep_eq_of_same (same_foldl_vBody (x := .condition (.user c)) _ (by simp)
      (by simp) sems)
  obtain ⟨st, qu, v, lg, hfold⟩ := foldl_vBody_eq { k with data := k.data } sems
  rw [hfold] at hasleep ⊢
  simp only [monitor, Monitor.mk.injEq, true_and]
  exact hasleep

/-- While a thread is in its own code nobody is on the way to `waitQ`. -/
theorem sleepsOn_iff_of_stack (hat : k.Atomic) (hnil : k.stack k.currentThread = [])
    (hstack : k'.stack = k.stack) (c : ℕ) (t : Tid) :
    k'.SleepsOn c t ↔ t ∈ (k'.queue (.condition (.user c))).map Keyed.item := by
  refine or_iff_left ?_
  rintro ⟨l, old, hmem⟩
  rw [hstack] at hmem
  have hcur := (hat t _ l old hmem).current
  rw [hcur, hnil] at hmem
  cases hmem

theorem sleepsOn_iff_of_own (hat : k.Atomic) (hnil : k.stack k.currentThread = [])
    (c : ℕ) (t : Tid) :
    k.SleepsOn c t ↔ t ∈ (k.queue (.condition (.user c))).map Keyed.item :=
  sleepsOn_iff_of_stack hat hnil rfl c t

theorem not_sleepsOn_current (hp : k.Placed) (hat : k.Atomic)
    (hnil : k.stack k.currentThread = []) (c : ℕ) : ¬ k.SleepsOn c k.currentThread := by
  rw [sleepsOn_iff_of_own hat hnil]
  intro hmem
  have hawake : k.Awake := hp.awake_of_not_inSleep (by simp [InSleep, hnil])
  rw [mem_queue_iff hp, hawake.seat_current] at hmem
  cases hmem

/-- The calls on the conditions of a program. -/
theorem rouses_of_exec {pc : ρ} {data : δ} {o : Call ρ} (hp : k.Placed) (ht : k.Tidy)
    (hat : k.Atomic) (hnil : k.stack k.currentThread = [])
    (he : (k.advance pc data).exec o = .ok k') :
    o.Rouses k.currentThread k.monitor.asleep k'.monitor.asleep := by
  have hother : ∀ c, o.about ≠ some (.condition (.user c)) →
      k'.monitor.asleep c = k.monitor.asleep c := by
    intro c ho
    have hadv : Same (.condition (.user c)) k (k.advance pc data) := .of_eq rfl rfl rfl rfl rfl rfl
    exact asleep_eq_of_same
      (hadv.trans (same_exec (by simp) ho (ht.fresh _ le_rfl) he))
  have hnone : (∀ c, o.about ≠ some (.condition (.user c))) →
      o.Rouses k.currentThread k.monitor.asleep k'.monitor.asleep := by
    intro ho
    rw [funext fun c => hother c (ho c)]
    exact .other o ho
  -- a call on the condition `c` changes who is asleep on `c`
  have hone : ∀ c asleep, o.about = some (.condition (.user c)) → k'.monitor.asleep c = asleep →
      k'.monitor.asleep = Function.update k.monitor.asleep c asleep := by
    intro c asleep ho hc
    funext c'
    by_cases hcc : c' = c
    · subst hcc
      rw [hc, Function.update_self]
    · rw [Function.update_of_ne hcc]
      refine hother c' ?_
      rw [ho]
      simp [Ne.symm hcc]
  cases o with
  | wait c l =>
      cases c with
      | ofThread s => exact hnone (by simp [Call.about])
      | user c =>
          rw [hone c _ rfl]
          · exact .wait c l
          · simp only [exec, wait, assertThen_ok, Except.ok.injEq] at he
            obtain ⟨-, rfl⟩ := he
            ext t
            by_cases htc : t = k.currentThread
            · subst htc
              exact iff_of_true (.inr ⟨l, k.level, by simp⟩) (.inl rfl)
            · refine Iff.trans ?_ (or_iff_right htc).symm
              exact or_congr Iff.rfl (by simp [htc])
  | signal c l =>
      cases c with
      | ofThread s => exact hnone (by simp [Call.about])
      | user c =>
          have hk : k'.queue (.condition (.user c)) = (k.queue (.condition (.user c))).tail ∧
              k'.stack = k.stack := by
            simp only [exec, signal, assertThen_ok, Except.ok.injEq] at he
            obtain ⟨-, rfl⟩ := he
            exact ⟨signalOne_queue _ _, (signalOne_untouched _ _).stack⟩
          have hmem := sleepsOn_iff_of_stack hat hnil hk.2 c
          cases hes : k.queue (.condition (.user c)) with
          | nil =>
              have hempty : k.monitor.asleep c = ∅ := by
                ext t
                exact (sleepsOn_iff_of_own hat hnil c t).trans (by simp [hes])
              rw [hone c ∅ rfl, ← hempty, Function.update_eq_self]
              · exact .signalNobody c l hempty
              · ext t
                exact (hmem t).trans (by simp [hk.1, hes])
          | cons e es =>
              have hfront := hp.seated.front_not_mem hes
              rw [hone c (k.monitor.asleep c \ {e.item}) rfl]
              · exact .signal c l e.item ((sleepsOn_iff_of_own hat hnil c e.item).2 (by simp [hes]))
              · ext t
                rw [Set.mem_sdiff, Set.mem_singleton_iff]
                refine (hmem t).trans (Iff.trans ?_
                  (and_congr_left' (sleepsOn_iff_of_own hat hnil c t).symm))
                rw [hk.1, hes, List.tail_cons, List.map_cons, List.mem_cons]
                constructor
                · intro ht
                  refine ⟨.inr ht, ?_⟩
                  rintro rfl
                  exact hfront ht
                · rintro ⟨rfl | ht, hne⟩
                  · exact absurd rfl hne
                  · exact ht
  | broadcast c l =>
      cases c with
      | ofThread s => exact hnone (by simp [Call.about])
      | user c =>
          obtain ⟨hq, hun⟩ := broadcast_spec he
          rw [hone c ∅ rfl]
          · exact .broadcast c l
          · ext t
            exact (sleepsOn_iff_of_stack hat hnil hun.stack c t).trans (by simp [hq])
  | _ => exact hnone (by simp [Call.about])

section

variable {cl : Client ρ δ α} {idle : ρ} {data : δ} {initialValue : ℕ → ℤ} {lab : Label α}

/-- A call in the own code of the current thread, which may make a new thread. -/
theorem program_of_exec (hcl : cl.Steady idle) (hp : k.Placed)
    (hfresh : k.monitor.Fresh idle) {a : α}
    {o : Call ρ} {pc : ρ} {d : δ}
    (hnext : cl.next k.currentThread (k.pc k.currentThread) k.data k.view a = some (o, pc, d))
    (he : (k.advance pc d).exec o = .ok k') :
    k'.data = d ∧ k'.pc = Function.update k.pc k.currentThread pc ∧
      k.numThreads ≤ k'.numThreads := by
  rcases exec_program he with hq | ⟨join, start, rfl, hpc, hdata, hnum, -⟩
  · exact ⟨hq.data, hq.pc, hq.numThreads.ge⟩
  · refine ⟨hdata, ?_, hnum.symm ▸ Nat.le_succ _⟩
    rw [hpc, hcl.fork hnext]
    refine Function.update_eq_self_iff.2 ?_
    have hidle : k.pc k.numThreads = idle := hfresh k.numThreads le_rfl
    simp [hp.current_lt.ne', hidle]

/-- A step is a turn of the current thread or leaves the monitor alone. -/
theorem step_monitor (hcl : cl.Steady idle) (hfresh : k.monitor.Fresh idle)
    (hr : Runs cl idle data initialValue k) (hs : step cl k lab = .ok k') :
    (∃ a o pc, lab = .act a ∧ k.stack k.currentThread = [] ∧
      k.monitor.Turn cl k.currentThread a o pc k'.monitor) ∨ k'.monitor = k.monitor := by
  have hp := hr.placed
  rcases step_program hr.inner hs with
    ⟨a, o, pc, d, rfl, hnil, hnext, -, he⟩ | ⟨a, -, hh⟩ | ⟨hne, hq⟩
  · obtain ⟨rfl, hpc, hnum⟩ := program_of_exec hcl hp hfresh hnext he
    exact .inl ⟨a, o, pc, rfl, hnil, hp.current_lt,
      fun c => not_sleepsOn_current hp hr.atomic hnil c, ⟨k.view, hnext⟩, hpc, hnum,
        rouses_of_exec hp hr.tidy hr.atomic hnil he⟩
  · exact .inr (monitor_of_handle hcl hh)
  · exact .inr (monitor_of_quiet hp hr.tidy hr.inner hs hne hq)

theorem Runs.fresh (hcl : cl.Steady idle) (h : Runs cl idle data initialValue k) :
    k.monitor.Fresh idle := by
  refine Reachable.invariant (I := fun k => k.monitor.Fresh idle) (fun _ _ => rfl) ?_ h
  intro k lab k' hr hfresh hs t ht
  rcases step_monitor hcl hfresh hr hs with ⟨a, o, pc, -, -, hturn⟩ | heq
  · exact hturn.fresh hfresh t (hturn.numThreads.trans ht)
  · rw [heq] at ht ⊢
    exact hfresh t ht

/-- The own code of the current thread goes on, or the program does not. -/
theorem Runs.turn (hcl : cl.Steady idle) (hr : Runs cl idle data initialValue k)
    (hs : step cl k lab = .ok k') :
    (∃ a o pc, lab = .act a ∧ k.stack k.currentThread = [] ∧
      k.monitor.Turn cl k.currentThread a o pc k'.monitor) ∨ k'.monitor = k.monitor :=
  step_monitor hcl (hr.fresh hcl) hr hs

/-- The invariant rule for monitors. -/
theorem Runs.monitor_invariant (hcl : cl.Steady idle) {I : Monitor ρ δ → Prop}
    (h₀ : I (init idle data initialValue).monitor)
    (hstep : ∀ s s' t a o pc, s.Fresh idle → I s → s.Turn cl t a o pc s' → I s')
    (h : Runs cl idle data initialValue k) : I k.monitor := by
  refine Reachable.invariant (I := fun k => I k.monitor) h₀ ?_ h
  intro k lab k' hr hi hs
  rcases Runs.turn hcl hr hs with ⟨a, o, pc, -, -, hturn⟩ | heq
  · exact hstep _ _ _ a o pc (Runs.fresh hcl hr) hi hturn
  · rw [heq]
    exact hi

/-- The same, for the runs whose steps meet a condition. -/
theorem monitor_of_meets (hcl : cl.Steady idle) {I : Monitor ρ δ → Prop}
    {P : Kernel ρ δ → Label α → Prop} (h₀ : I (init idle data initialValue).monitor)
    (hstep : ∀ (k k' : Kernel ρ δ) a o pc, Runs cl idle data initialValue k → I k.monitor →
      P k (.act a) →
      k.stack k.currentThread = [] → k.monitor.Turn cl k.currentThread a o pc k'.monitor →
        I k'.monitor)
    {labs : List (Label α)} (hmeets : Meets (step cl) P (init idle data initialValue) labs)
    (hrun : runFrom (step cl) (init idle data initialValue) labs = .ok k) :
    Runs cl idle data initialValue k ∧ I k.monitor := by
  refine invariant_of_meets (P := P) (I := fun k => Runs cl idle data initialValue k ∧ I k.monitor)
    ?_ ⟨Reachable.refl _ _, h₀⟩ hmeets hrun
  rintro k lab k' ⟨hr, hi⟩ hlab hs
  refine ⟨hr.tail hs, ?_⟩
  rcases hr.turn hcl hs with ⟨a, o, pc, rfl, hnil, hturn⟩ | heq
  · exact hstep k k' a o pc hr hi hlab hnil hturn
  · rw [heq]
    exact hi

end

end Kernel

end Nachos
