import Nachos.Threads.Objects

/-!
# What the kernel does to a program

The program point of a thread and the data of the program change only when a
thread makes a call of its own, or in a handler; `step_program` is the case
distinction for proofs about programs. The calls that kernel routines make for
themselves are few, and only those of `Finish` and `Join` are on conditions.
-/

namespace Nachos

open Lib

/-- The calls that kernel routines make. -/
def Call.isInner {ρ : Type} : Call ρ → Bool
  | .acquire _ => true
  | .release _ => true
  | .wait (.ofThread _) _ => true
  | .signal (.ofThread _) _ => true
  | .yield => true
  | _ => false

theorem Call.Next.inner {ρ : Type} {me : Tid} {o : Call ρ} {new : List (Frame ρ)}
    (h : o.Next me new) {o' : Call ρ} (hmem : .call o' ∈ new) : o'.isInner = true := by
  cases h <;> simp_all [Call.isInner]

theorem Frame.Next.inner {ρ : Type} {me : Tid} {f : Frame ρ} {new : List (Frame ρ)}
    (h : f.Next me new) {o' : Call ρ} (hmem : .call o' ∈ new) : o'.isInner = true := by
  cases h with
  | call o new h => exact h.inner hmem
  | _ => grind [Call.isInner]

theorem Rewrites.inner {ρ : Type} {me : Tid} {fs gs : List (Frame ρ)} (h : Rewrites me fs gs)
    (hfs : ∀ o, .call o ∈ fs → o.isInner = true) : ∀ o, .call o ∈ gs → o.isInner = true := by
  intro o hmem
  cases h with
  | own o' new ho h => exact h.inner hmem
  | frame f new rest h =>
      rcases List.mem_append.1 hmem with hmem | hmem
      · exact h.inner hmem
      · exact hfs o (List.mem_cons_of_mem f hmem)

/-- The program without the choices `bad`. -/
def Client.without {ρ δ α : Type} (cl : Client ρ δ α) (bad : α → Bool) : Client ρ δ α where
  next t pc d view a := if bad a then none else cl.next t pc d view a
  handler := cl.handler

namespace Kernel

variable {ρ δ α : Type}

theorem Runs.inner {cl : Client ρ δ α} {start : ρ} {data : δ} {initialValue : ℕ → ℤ}
    {k : Kernel ρ δ} (h : Runs cl start data initialValue k) (t : Tid) :
    ∀ o, .call o ∈ k.stack t → o.isInner = true :=
  h.stacks (S := fun _ fs => ∀ o, .call o ∈ fs → o.isInner = true) (by simp) (by simp)
    (fun _ _ _ hr => hr.inner) t

/-- A run that makes no choice `bad` is one of the program without them. -/
theorem Runs.without {cl : Client ρ δ α} {bad : α → Bool} {start : ρ} {data : δ}
    {initialValue : ℕ → ℤ} {labs : List (Label α)} {k : Kernel ρ δ}
    (h : runFrom (step cl) (init start data initialValue) labs = .ok k)
    (hbad : ∀ a, .act a ∈ labs → bad a = false) :
    Runs (cl.without bad) start data initialValue k := by
  refine ⟨labs, (runFrom_congr (fun lab hlab k => ?_) _).trans h⟩
  unfold step
  split
  · rename_i a _
    simp only [act, Client.without, hbad a hlab, Bool.false_eq_true, if_false]
  · rfl
  · rename_i f rest lab _
    cases f <;> cases lab <;> rfl

/-- The threads, their program points and the data are the same. -/
structure Quiet (k k' : Kernel ρ δ) : Prop where
  pc : k'.pc = k.pc
  data : k'.data = k.data
  numThreads : k'.numThreads = k.numThreads
  join : k'.join = k.join

theorem Quiet.of_eq {k k₀ k' : Kernel ρ δ} (h : Quiet k₀ k') (hpc : k₀.pc = k.pc)
    (hdata : k₀.data = k.data) (hnum : k₀.numThreads = k.numThreads) (hjoin : k₀.join = k.join) :
    Quiet k k' :=
  ⟨h.pc.trans hpc, h.data.trans hdata, h.numThreads.trans hnum, h.join.trans hjoin⟩

theorem quiet_sleep {k k' : Kernel ρ δ} (h : k.sleep = .ok k') : Quiet k k' := by
  simp only [sleep, assertThen_ok, Except.ok.injEq] at h
  obtain ⟨-, rfl⟩ := h
  exact ⟨rfl, rfl, rfl, rfl⟩

theorem quiet_pLoop {k k' : Kernel ρ δ} {s : ℕ} (h : k.pLoop s = .ok k') : Quiet k k' := by
  unfold pLoop at h
  split at h
  · exact (quiet_sleep h).of_eq rfl rfl rfl rfl
  · cases h
    exact ⟨rfl, rfl, rfl, rfl⟩

theorem quiet_acquireLoop {k k' : Kernel ρ δ} {l : Obj} (h : k.acquireLoop l = .ok k') :
    Quiet k k' := by
  unfold acquireLoop at h
  split at h
  · exact (quiet_sleep h).of_eq rfl rfl rfl rfl
  · cases h
    exact ⟨rfl, rfl, rfl, rfl⟩

theorem quiet_yield (k : Kernel ρ δ) : Quiet k k.yield := by
  unfold yield findNextToRun remove
  cases k.disable.queue .readyList with
  | nil => exact ⟨rfl, rfl, rfl, rfl⟩
  | cons e es => exact ⟨rfl, rfl, rfl, rfl⟩

theorem quiet_setLevel (k : Kernel ρ δ) (now : IntStatus) : Quiet k (k.setLevel now) := by
  unfold Kernel.setLevel
  split
  · exact ⟨rfl, rfl, rfl, rfl⟩
  · exact ⟨rfl, rfl, rfl, rfl⟩

theorem quiet_afterSwitch {k k' : Kernel ρ δ} (h : k.afterSwitch = .ok k') : Quiet k k' := by
  rcases afterSwitch_cases h with ⟨-, rfl⟩ | ⟨t, -, rfl⟩
  · exact ⟨rfl, rfl, rfl, rfl⟩
  · exact ⟨rfl, rfl, rfl, rfl⟩

theorem quiet_finishLoop (k : Kernel ρ δ) : Quiet k k.finishLoop := by
  unfold finishLoop
  split
  · exact ⟨rfl, rfl, rfl, rfl⟩
  · split
    · exact ⟨rfl, rfl, rfl, rfl⟩
    · exact ⟨rfl, rfl, rfl, rfl⟩

/-- A call leaves the program alone, except for a new thread, which gets its start. -/
theorem exec_program {k k' : Kernel ρ δ} {o : Call ρ} (h : k.exec o = .ok k') :
    Quiet k k' ∨ ∃ join start, o = .fork k.numThreads join start ∧
      k'.pc = Function.update k.pc k.numThreads start ∧ k'.data = k.data ∧
        k'.numThreads = k.numThreads + 1 ∧
          k'.join = Function.update k.join k.numThreads join := by
  cases o with
  | P s => exact .inl ((quiet_pLoop h).of_eq rfl rfl rfl rfl)
  | V s =>
      cases h
      obtain ⟨st, qu, hv⟩ := (k.disable.push (.setLevel k.level)).vBody_eq s
      exact .inl ⟨by simp [semV, hv], by simp [semV, hv], by simp [semV, hv], by simp [semV, hv]⟩
  | acquire l =>
      simp only [exec, acquire, assertThen_ok] at h
      exact .inl ((quiet_acquireLoop h.2).of_eq rfl rfl rfl rfl)
  | release l =>
      simp only [exec, release, assertThen_ok, Except.ok.injEq] at h
      obtain ⟨-, rfl⟩ := h
      obtain ⟨st, qu, hw⟩ := ((k.disable.push (.setLevel k.level)).note
        (.releaseCalled l k.currentThread)).wakeOne_eq (.lock l)
      exact .inl ⟨by simp [hw], by simp [hw], by simp [hw], by simp [hw]⟩
  | wait c l =>
      simp only [exec, wait, assertThen_ok, Except.ok.injEq] at h
      obtain ⟨-, rfl⟩ := h
      exact .inl ⟨rfl, rfl, rfl, rfl⟩
  | signal c l =>
      simp only [exec, signal, assertThen_ok, Except.ok.injEq] at h
      obtain ⟨-, rfl⟩ := h
      obtain ⟨st, qu, lg, hk⟩ := k.signalOne_eq c
      exact .inl ⟨by simp [hk], by simp [hk], by simp [hk], by simp [hk]⟩
  | broadcast c l =>
      simp only [exec, broadcast, assertThen_ok, Except.ok.injEq] at h
      obtain ⟨-, rfl⟩ := h
      obtain ⟨st, qu, lg, hk⟩ := k.broadcastLoop_eq c (k.queue (.condition c)).length
      exact .inl ⟨by simp [hk], by simp [hk], by simp [hk], by simp [hk]⟩
  | yield =>
      cases h
      exact .inl k.quiet_yield
  | fork t join start =>
      simp only [exec, fork] at h
      split at h
      · rename_i ht
        cases h
        exact .inr ⟨join, start, by rw [ht], by simp [ht], by simp, by simp, by simp [ht]⟩
      · cases h
  | finish =>
      cases h
      exact .inl ⟨rfl, rfl, rfl, rfl⟩
  | join t =>
      simp only [exec, joinCall, assertThen_ok, Except.ok.injEq] at h
      obtain ⟨-, rfl⟩ := h
      exact .inl ⟨rfl, rfl, rfl, rfl⟩
  | setPriority t p =>
      cases h
      exact .inl ⟨rfl, rfl, rfl, rfl⟩
  | oneTick =>
      cases h
      exact .inl ⟨rfl, rfl, rfl, rfl⟩

theorem exec_inner {k k' : Kernel ρ δ} {o : Call ρ} (ho : o.isInner = true)
    (h : k.exec o = .ok k') : Quiet k k' := by
  rcases exec_program h with hq | ⟨join, start, rfl, -⟩
  · exact hq
  · cases ho

theorem quiet_resume {cl : Client ρ δ α} {k k' : Kernel ρ δ} {f : Frame ρ} {lab : Label α}
    (hcall : ∀ o, f ≠ .call o) (hlab : ∀ a, lab ≠ .interrupt a)
    (h : resume cl k f lab = .ok k') : Quiet k k' := by
  rcases resume_cases h with rfl | ⟨rfl, rfl, rfl⟩ | ⟨a, rfl, -⟩
  · cases f with
    | call o => exact absurd rfl (hcall o)
    | setLevel now =>
        cases h
        exact quiet_setLevel k now
    | sleepLoop =>
        obtain ⟨e, es, -, rfl⟩ := sleepLoop_go h
        exact ⟨rfl, rfl, rfl, rfl⟩
    | afterSwitch => exact quiet_afterSwitch h
    | pRetest s => exact quiet_pLoop h
    | acquireRetest l => exact quiet_acquireLoop h
    | waitEnqueue c l old => exact (quiet_sleep h).of_eq rfl rfl rfl rfl
    | waitReturn c l =>
        simp only [resume, assertThen_ok, Except.ok.injEq] at h
        obtain ⟨-, rfl⟩ := h
        exact ⟨rfl, rfl, rfl, rfl⟩
    | finishLoop =>
        cases h
        exact quiet_finishLoop k
    | finishDone => exact (quiet_sleep h).of_eq rfl rfl rfl rfl
    | finished => cases h
    | _ =>
        cases h
        exact ⟨rfl, rfl, rfl, rfl⟩
  · exact ⟨rfl, rfl, rfl, rfl⟩
  · exact absurd rfl (hlab a)

/-- A handler changes the data of the program. -/
theorem handle_program {cl : Client ρ δ α} {k k' : Kernel ρ δ} {a : α}
    (h : handle cl k a = .ok k') :
    ∃ sems data, cl.handler a k.data = some (sems, data) ∧ Quiet { k with data := data } k' := by
  obtain ⟨sems, data, heq, rfl⟩ := handle_eq h
  obtain ⟨st, qu, v, lg, hk⟩ := foldl_vBody_eq { k with data := data } sems
  rw [hk]
  exact ⟨sems, data, heq, rfl, rfl, rfl, rfl⟩

/-- A step is a call that a thread makes in its own code, a handler, or a part of a
kernel routine that leaves the program alone. -/
theorem step_program {cl : Client ρ δ α} {k k' : Kernel ρ δ} {lab : Label α}
    (hinner : ∀ t o, .call o ∈ k.stack t → o.isInner = true) (h : step cl k lab = .ok k') :
    (∃ a o pc data, lab = .act a ∧ k.stack k.currentThread = [] ∧
      cl.next k.currentThread (k.pc k.currentThread) k.data k.view a = some (o, pc, data) ∧
        o.isPublic = true ∧ (k.advance pc data).exec o = .ok k') ∨
      (∃ a, lab = .interrupt a ∧ handle cl k a = .ok k') ∨
        k.stack k.currentThread ≠ [] ∧ Quiet k k' := by
  rcases step_cases h with ⟨o, k₀, hi, he⟩ | ⟨f, rest, hs, hcall, hr⟩
  · cases hi with
    | own a o pc data hs hnext ho => exact .inl ⟨a, o, pc, data, rfl, hs, hnext, ho, he⟩
    | inner o rest hs =>
        have ho := hinner k.currentThread o (by simp [hs])
        exact .inr (.inr ⟨by simp [hs], (exec_inner ho he).of_eq rfl rfl rfl rfl⟩)
  · by_cases hlab : ∃ a, lab = .interrupt a
    · obtain ⟨a, rfl⟩ := hlab
      exact .inr (.inl ⟨a, rfl, resume_interrupt hs hr⟩)
    · have hlab' : ∀ a, lab ≠ .interrupt a := fun a ha => hlab ⟨a, ha⟩
      exact .inr (.inr ⟨by simp [hs], (quiet_resume hcall hlab' hr).of_eq rfl rfl rfl rfl⟩)

/-- The current thread goes on to `pc` and makes the call `o`: the program points of the others
stay, and a new thread gets its start. -/
structure Advances (k k' : Kernel ρ δ) (o : Call ρ) (pc : ρ) : Prop where
  self : k'.pc k.currentThread = pc
  others : ∀ u, u ≠ k.currentThread → u < k.numThreads → k'.pc u = k.pc u
  numThreads : k.numThreads ≤ k'.numThreads
  born : ∀ u, k.numThreads ≤ u → u < k'.numThreads →
    u = k.numThreads ∧ ∃ join start, o = .fork u join start ∧ k'.pc u = start
  forked : ∀ u join start, o = .fork u join start →
    u = k.numThreads ∧ k'.numThreads = k.numThreads + 1

theorem advances_of_exec {k k' : Kernel ρ δ} {o : Call ρ} {pc : ρ} {data : δ}
    (hcur : k.currentThread < k.numThreads) (h : (k.advance pc data).exec o = .ok k') :
    Advances k k' o pc ∧ k'.data = data := by
  have hfork : ∀ u join start, o = .fork u join start →
      u = k.numThreads ∧ k'.numThreads = k.numThreads + 1 := by
    rintro u join start rfl
    simp only [exec, fork] at h
    split at h
    · rename_i hu
      cases h
      exact ⟨hu, rfl⟩
    · cases h
  rcases exec_program h with hq | ⟨join, start, rfl, hpc, hdata, hnum, -⟩
  · refine ⟨⟨?_, ?_, hq.numThreads.ge, ?_, hfork⟩, hq.data⟩
    · rw [hq.pc]
      exact Function.update_self ..
    · intro u hu _
      rw [hq.pc]
      exact Function.update_of_ne hu _ _
    · intro u hu hu'
      rw [hq.numThreads] at hu'
      exact absurd hu' (not_lt.2 hu)
  · have hne : k.currentThread ≠ k.numThreads := hcur.ne
    refine ⟨⟨?_, ?_, by rw [hnum]; exact Nat.le_succ _, ?_, hfork⟩, hdata⟩
    · simp [hpc, hne]
    · intro u hu hlt
      simp [hpc, hu, hlt.ne]
    · intro u hu hu'
      rw [hnum] at hu'
      obtain rfl : u = k.numThreads := le_antisymm (Nat.lt_succ_iff.1 hu') hu
      exact ⟨rfl, join, start, rfl, by simp [hpc]⟩

theorem Advances.pc_cases {k k' : Kernel ρ δ} {o : Call ρ} {pc : ρ} (h : Advances k k' o pc)
    {u : Tid} (hu : u < k'.numThreads) :
    (u = k.currentThread ∧ k'.pc u = pc) ∨
      (u ≠ k.currentThread ∧ u < k.numThreads ∧ k'.pc u = k.pc u) ∨
        u = k.numThreads ∧ ∃ join start, o = .fork u join start ∧ k'.pc u = start := by
  by_cases hc : u = k.currentThread
  · exact .inl ⟨hc, hc ▸ h.self⟩
  · by_cases hlt : u < k.numThreads
    · exact .inr (.inl ⟨hc, hlt, h.others u hc hlt⟩)
    · exact .inr (.inr (h.born u (not_lt.1 hlt) hu))

/-- A step is a turn of the current thread in its own code up to its next call, a handler, or a
part of a kernel routine that leaves the program alone. -/
theorem step_advances {cl : Client ρ δ α} {k k' : Kernel ρ δ} {lab : Label α}
    (hcur : k.currentThread < k.numThreads)
    (hinner : ∀ t o, .call o ∈ k.stack t → o.isInner = true) (h : step cl k lab = .ok k') :
    (∃ a o pc, lab = .act a ∧ k.stack k.currentThread = [] ∧
      cl.next k.currentThread (k.pc k.currentThread) k.data k.view a = some (o, pc, k'.data) ∧
        o.isPublic = true ∧ (k.advance pc k'.data).exec o = .ok k' ∧ Advances k k' o pc) ∨
      (∃ a sems, lab = .interrupt a ∧ cl.handler a k.data = some (sems, k'.data) ∧
        k.stack k.currentThread ≠ [] ∧ Quiet { k with data := k'.data } k') ∨
        k.stack k.currentThread ≠ [] ∧ Quiet k k' := by
  rcases step_program hinner h with ⟨a, o, pc, data, rfl, hst, hnext, hpub, he⟩ | ⟨a, rfl, he⟩ | hq
  · obtain ⟨hadv, rfl⟩ := advances_of_exec hcur he
    exact .inl ⟨a, o, pc, rfl, hst, hnext, hpub, he, hadv⟩
  · obtain ⟨sems, data, heq, hq⟩ := handle_program he
    have hne : k.stack k.currentThread ≠ [] := by
      intro hnil
      simp [step, hnil] at h
    obtain rfl : k'.data = data := hq.data
    exact .inr (.inl ⟨a, sems, rfl, heq, hne, hq⟩)
  · exact .inr (.inr hq)

end Kernel

end Nachos
