import Nachos.Threads.Semaphore
import Nachos.Threads.Program

/-!
# The calls on a semaphore

A call of `P` has taken its unit when it returns to the code of the thread, so the units that
a thread has taken are counted by its calls. `calledP` counts the calls of one thread: those in the
history and the one that is in its loop. `Runs.step_calls` says what a step does to the
program together with what it does to these counts.
-/

namespace Nachos

open Lib



def Call.countP {ρ : Type} (s : ℕ) : Call ρ → ℕ
  | .P s' => if s' = s then 1 else 0
  | _ => 0

def Call.countV {ρ : Type} (s : ℕ) : Call ρ → ℕ
  | .V s' => if s' = s then 1 else 0
  | _ => 0

theorem Call.count_of_other {ρ : Type} {s : ℕ} {o : Call ρ} (h : o.about ≠ some (.semaphore s)) :
    o.countP s = 0 ∧ o.countV s = 0 := by
  cases o with
  | P s' => simpa [countP, countV, about] using h
  | V s' => simpa [countP, countV, about] using h
  | _ => exact ⟨rfl, rfl⟩

theorem Call.not_semaphore_of_inner {ρ : Type} {s : ℕ} {o : Call ρ} (h : o.isInner = true) :
    o.about ≠ some (.semaphore s) := by
  cases o <;> simp_all [Call.isInner, Call.about]

/-- If only `w` has called `P`, then only `w` has taken units. -/
theorem completedP_eq_count {s : ℕ} {w : Tid} {es : List Event}
    (h : ∀ t, t ≠ w → es.count (.pDone s t) = 0) : completedP s es = es.count (.pDone s w) := by
  unfold completedP
  rw [List.count_eq_countP]
  refine List.countP_congr fun e he => ?_
  cases e with
  | pDone s' t =>
      simp only [Event.isP, decide_eq_true_eq, beq_iff_eq, Event.pDone.injEq]
      constructor
      · rintro rfl
        refine ⟨rfl, ?_⟩
        by_contra hne
        exact List.count_eq_zero.1 (h t hne) he
      · exact fun heq => heq.1
  | _ => simp [Event.isP]

namespace Kernel

variable {ρ δ α : Type}

/-- The calls of `P` on `s` that `t` has made. -/
def calledP (k : Kernel ρ δ) (s : ℕ) (t : Tid) : ℕ :=
  k.log.count (.pDone s t) + (framesOf (.semaphore s) (k.stack t)).length

/-- The current thread has made `p` calls of `P`, and there have been `v` calls of `V`. -/
structure Calls (s : ℕ) (k k' : Kernel ρ δ) (p v : ℕ) : Prop where
  calledP : ∀ t, k'.calledP s t = k.calledP s t + if t = k.currentThread then p else 0
  completedV : completedV s k'.log = completedV s k.log + v

variable {s : ℕ} {k k₁ k' : Kernel ρ δ} {p v : ℕ}

theorem count_eventsOf (s : ℕ) (t : Tid) (es : List Event) :
    (eventsOf (.semaphore s) es).count (.pDone s t) = es.count (.pDone s t) :=
  List.count_filter (by simp [Event.about])

theorem Calls.of_same (h : Same (.semaphore s) k k') : Calls s k k' 0 0 := by
  refine ⟨fun t => ?_, ?_⟩
  · unfold Kernel.calledP
    rw [h.frames t, ← count_eventsOf, h.log, count_eventsOf, ite_self, Nat.add_zero]
  · rw [← completedV_eventsOf, h.log, completedV_eventsOf, Nat.add_zero]

/-- Nothing before the calls. -/
theorem Calls.after (h : Same (.semaphore s) k k₁) (hcur : k₁.currentThread = k.currentThread)
    (h₁ : Calls s k₁ k' p v) : Calls s k k' p v := by
  have h₀ := Calls.of_same h
  refine ⟨fun t => ?_, ?_⟩
  · rw [h₁.calledP t, h₀.calledP t, hcur, ite_self, Nat.add_zero]
  · rw [h₁.completedV, h₀.completedV, Nat.add_zero]

/-- The loop of `P` is left with a unit, or the thread is in it. -/
theorem calls_pLoop (h : k.pLoop s = .ok k') : Calls s k k' 1 0 := by
  unfold pLoop at h
  split at h
  · simp only [sleep, assertThen_ok, Except.ok.injEq] at h
    obtain ⟨-, rfl⟩ := h
    refine ⟨fun t => ?_, rfl⟩
    by_cases ht : t = k.currentThread
    · subst ht
      simp [Kernel.calledP, framesOf, Frame.about, Nat.add_assoc]
    · simp [Kernel.calledP, ht]
  · cases h
    refine ⟨fun t => ?_, by simp [completedV]⟩
    by_cases ht : t = k.currentThread
    · subst ht
      simp [Kernel.calledP, Nat.add_right_comm]
    · simp [Kernel.calledP, ht, Ne.symm ht]

theorem calls_vBody (k : Kernel ρ δ) (s : ℕ) : Calls s k (k.vBody s) 0 1 := by
  obtain ⟨st, qu, hv⟩ := k.vBody_eq s
  rw [hv]
  exact ⟨fun t => by simp [Kernel.calledP], by simp [completedV]⟩

theorem calls_foldl_vBody (k : Kernel ρ δ) (s : ℕ) (sems : List ℕ) :
    Calls s k (sems.foldl vBody k) 0 (sems.count s) := by
  induction sems generalizing k with
  | nil => exact .of_same (.refl k)
  | cons s' sems ih =>
      have hrest := ih (k.vBody s')
      have hfirst : Calls s k (k.vBody s') 0 (if s' = s then 1 else 0) := by
        by_cases hs : s' = s
        · subst hs
          rw [if_pos rfl]
          exact calls_vBody k s'
        · rw [if_neg hs]
          exact .of_same (same_vBody k (by simp) (by simpa using Ne.symm hs))
      refine ⟨fun t => ?_, ?_⟩
      · rw [List.foldl_cons, hrest.calledP t, hfirst.calledP t, ite_self, ite_self, Nat.add_zero]
      · rw [List.foldl_cons, hrest.completedV, hfirst.completedV, List.count_cons]
        simp only [beq_iff_eq]
        omega

theorem calls_exec {o : Call ρ} (hfresh : k.stack k.numThreads = []) (h : k.exec o = .ok k') :
    Calls s k k' (o.countP s) (o.countV s) := by
  by_cases ho : o.about = some (.semaphore s)
  · have hstart : Same (.semaphore s) k (k.disable.push (.setLevel k.level)) :=
      (same_disable k).trans (same_push _ (by simp [Frame.about]))
    cases o with
    | P s' =>
        obtain rfl : s' = s := by simpa [Call.about] using ho
        simpa [Call.countP, Call.countV] using Calls.after hstart rfl (calls_pLoop h)
    | V s' =>
        obtain rfl : s' = s := by simpa [Call.about] using ho
        cases h
        simpa [Call.countP, Call.countV, semV] using Calls.after hstart rfl (calls_vBody _ s')
    | _ => simp [Call.about] at ho
  · obtain ⟨hP, hV⟩ := Call.count_of_other ho
    rw [hP, hV]
    exact .of_same (same_exec (by simp) ho hfresh h)

/-- The loop of `P` is entered again with the frame of `P` taken off. -/
theorem calls_retest {rest : List (Frame ρ)} (hs : k.stack k.currentThread = .pRetest s :: rest)
    (h : (k.setStack rest).pLoop s = .ok k') : Calls s k k' 0 0 := by
  have hloop := calls_pLoop h
  refine ⟨fun t => ?_, hloop.completedV⟩
  rw [hloop.calledP t]
  by_cases ht : t = k.currentThread
  · subst ht
    simp [Kernel.calledP, hs, framesOf, Frame.about, Nat.add_assoc]
  · simp [Kernel.calledP, ht]

theorem calls_resume {cl : Client ρ δ α} {lab : Label α} {f : Frame ρ} {rest : List (Frame ρ)}
    (hs : k.stack k.currentThread = f :: rest) (hcall : ∀ o, f ≠ .call o)
    (hlab : ∀ a, lab ≠ .interrupt a) (h : resume cl (k.setStack rest) f lab = .ok k') :
    Calls s k k' 0 0 := by
  by_cases hf : f.about = some (.semaphore s)
  · cases f with
    | pRetest s' =>
        obtain rfl : s' = s := by simpa [Frame.about] using hf
        cases lab with
        | go => exact calls_retest hs h
        | _ => cases h
    | _ => simp [Frame.about] at hf
  · exact .of_same ((same_pop k hs hf).trans (same_resume (by simp) hf hcall hlab h))

variable {cl : Client ρ δ α} {start : ρ} {data : δ} {initialValue : ℕ → ℤ} {lab : Label α}

/-- What a step does to the program, and the calls of `P` and `V` that it makes. -/
theorem Runs.step_calls (hr : Runs cl start data initialValue k)
    (h : step cl k lab = .ok k') (s : ℕ) :
    (∃ a o pc, lab = .act a ∧ k.stack k.currentThread = [] ∧
      cl.next k.currentThread (k.pc k.currentThread) k.data k.view a = some (o, pc, k'.data) ∧
        (k.advance pc k'.data).exec o = .ok k' ∧ Calls s k k' (o.countP s) (o.countV s)) ∨
      (∃ a sems, lab = .interrupt a ∧ cl.handler a k.data = some (sems, k'.data) ∧
        Quiet { k with data := k'.data } k' ∧ Calls s k k' 0 (sems.count s)) ∨
        Quiet k k' ∧ Calls s k k' 0 0 := by
  have hp := hr.placed
  have hfresh := hr.tidy.fresh k.numThreads le_rfl
  rcases step_cases h with ⟨o, k₀, hi, he⟩ | ⟨f, rest, hs, hcall, hres⟩
  · cases hi with
    | own a o pc d hs hnext ho =>
        obtain ⟨-, rfl⟩ := advances_of_exec hp.current_lt he
        refine .inl ⟨a, o, pc, rfl, hs, hnext, he, ?_⟩
        have hadvance : Same (.semaphore s) k (k.advance pc k'.data) :=
          .of_eq rfl rfl rfl rfl rfl rfl
        exact .after hadvance rfl (calls_exec hfresh he)
    | inner o rest hs =>
        have ho := hr.inner k.currentThread o (by simp [hs])
        obtain ⟨hP, hV⟩ := Call.count_of_other (s := s) (Call.not_semaphore_of_inner ho)
        have hcalls := calls_exec (s := s) (k := k.setStack rest)
          (by simpa [hp.current_lt.ne'] using hfresh) he
        rw [hP, hV] at hcalls
        exact .inr (.inr ⟨(exec_inner ho he).of_eq rfl rfl rfl rfl,
          .after (same_pop k hs (by simp [Frame.about])) rfl hcalls⟩)
  · by_cases hlab : ∃ a, lab = .interrupt a
    · obtain ⟨a, rfl⟩ := hlab
      obtain ⟨sems, d, hd, rfl⟩ := handle_eq (resume_interrupt hs hres)
      obtain ⟨st, qu, vl, lg, hk⟩ := foldl_vBody_eq { k with data := d } sems
      have hdata : (sems.foldl vBody { k with data := d }).data = d := by rw [hk]
      refine .inr (.inl ⟨a, sems, rfl, hdata.symm ▸ hd, ?_, ?_⟩)
      · rw [hk]
        exact ⟨rfl, rfl, rfl, rfl⟩
      · have hchange : Same (.semaphore s) k { k with data := d } := .of_eq rfl rfl rfl rfl rfl rfl
        exact .after hchange rfl (calls_foldl_vBody _ s sems)
    · have hlab' : ∀ a, lab ≠ .interrupt a := fun a ha => hlab ⟨a, ha⟩
      exact .inr (.inr ⟨(quiet_resume hcall hlab' hres).of_eq rfl rfl rfl rfl,
        calls_resume hs hcall hlab' hres⟩)

/-- When nobody is in the loop of `P`, the calls have all taken their unit. -/
theorem log_count_eq_calledP {t : Tid} (hnobody : .pRetest s ∉ k.stack t) :
    k.log.count (.pDone s t) = k.calledP s t := by
  have hframes : framesOf (.semaphore s) (k.stack t) = [] := by
    refine List.eq_nil_iff_forall_not_mem.2 fun f hf => ?_
    obtain ⟨hmem, habout⟩ := mem_framesOf.1 hf
    cases f with
    | pRetest s' =>
        obtain rfl : s' = s := by simpa [Frame.about] using habout
        exact hnobody hmem
    | _ => simp [Frame.about] at habout
  rw [calledP, hframes, List.length_nil, Nat.add_zero]

end Kernel

/-- The thread that completes a P of the semaphore `s`. -/
def Event.taker (s : ℕ) : Event → Option Tid
  | .pDone s' t => if s' = s then some t else none
  | _ => none

/-- The units of a semaphore have been taken by the threads of the list. -/
theorem completedP_eq_length {s : ℕ} {es : List Event} {ts : List Tid}
    (h : ∀ t, es.count (.pDone s t) = ts.count t) : completedP s es = ts.length := by
  have hperm : (es.filterMap (Event.taker s)).Perm ts := by
    refine List.perm_iff_count.2 fun t => ?_
    rw [List.count_filterMap, ← h t, List.count_eq_countP]
    refine List.countP_congr fun e _ => ?_
    cases e with
    | pDone s' t' => simp [Event.taker]
    | _ => simp [Event.taker]
  rw [← hperm.length_eq, List.length_filterMap_eq_countP, completedP]
  refine List.countP_congr fun e _ => ?_
  cases e with
  | pDone s' t => by_cases hs : s' = s <;> simp [Event.taker, Event.isP, hs]
  | _ => simp [Event.taker, Event.isP]

/-- The program keeps the account of the semaphore: `asked` are the threads that have called `P`,
and `arrived` is the number of calls of `V`, which are made by the handlers. -/
structure Client.Counts {ρ δ α : Type} (cl : Client ρ δ α) (s : ℕ) (asked : δ → List Tid)
    (arrived : δ → ℕ) : Prop where
  own : ∀ {t pc d view a o pc' d'}, cl.next t pc d view a = some (o, pc', d') →
    asked d' = asked d ++ List.replicate (o.countP s) t ∧ o.countV s = 0 ∧ arrived d' = arrived d
  handler : ∀ {a d sems d'}, cl.handler a d = some (sems, d') →
    asked d' = asked d ∧ arrived d' = arrived d + sems.count s

namespace Client.Counts

open Kernel

variable {ρ δ α : Type} {cl : Client ρ δ α} {s : ℕ} {asked : δ → List Tid} {arrived : δ → ℕ}
  {k : Kernel ρ δ} {start : ρ} {data : δ} {initialValue : ℕ → ℤ}

theorem calls (hcl : cl.Counts s asked arrived) (hasked : asked data = [])
    (harrived : arrived data = 0)
    (hr : Runs cl start data initialValue k) :
    (∀ t, k.calledP s t = (asked k.data).count t) ∧ completedV s k.log = arrived k.data := by
  refine Reachable.invariant (I := fun k => (∀ t, k.calledP s t = (asked k.data).count t) ∧
    completedV s k.log = arrived k.data) ?_ ?_ hr
  · have hdata : (init start data initialValue).data = data := rfl
    refine ⟨fun t => ?_, ?_⟩
    · rw [hdata, hasked]
      rfl
    · rw [hdata, harrived]
      rfl
  rintro k lab k' hr ⟨hcalls, hvs⟩ hs
  rcases Runs.step_calls hr hs s with
    ⟨a, o, pc, -, -, hnext, -, hmade⟩ | ⟨a, sems, -, hhandler, -, hmade⟩ | ⟨hq, hmade⟩
  · obtain ⟨hnew, hV, hsame⟩ := hcl.own hnext
    refine ⟨fun t => ?_, ?_⟩
    · rw [hmade.calledP, hcalls, hnew, List.count_append, List.count_replicate]
      by_cases ht : t = k.currentThread
      · simp [ht]
      · simp [ht, Ne.symm ht]
    · rw [hmade.completedV, hvs, hV, hsame, Nat.add_zero]
  · obtain ⟨hsame, hnew⟩ := hcl.handler hhandler
    refine ⟨fun t => ?_, ?_⟩
    · rw [hmade.calledP, hcalls, hsame, ite_self, Nat.add_zero]
    · rw [hmade.completedV, hvs, hnew]
  · refine ⟨fun t => ?_, ?_⟩
    · rw [hmade.calledP, hcalls, hq.data, ite_self, Nat.add_zero]
    · rw [hmade.completedV, hvs, hq.data, Nat.add_zero]

variable (hcl : cl.Counts s asked arrived) (hasked : asked data = []) (harrived : arrived data = 0)
  (hvalue : initialValue s = 0) (hr : Runs cl start data initialValue k)
  (hnobody : ∀ t, .pRetest s ∉ k.stack t)

include hcl hasked harrived hr hnobody

/-- The units when nobody is in the loop of `P`. -/
theorem units_eq : units s 0 k.log = arrived k.data - (asked k.data).length := by
  obtain ⟨hcalls, hvs⟩ := hcl.calls hasked harrived hr
  have hcount : ∀ t, k.log.count (.pDone s t) = (asked k.data).count t :=
    fun t => (log_count_eq_calledP (hnobody t)).trans (hcalls t)
  rw [units, hvs, completedP_eq_length hcount, Int.zero_add]

include hvalue

theorem asked_le : (asked k.data).length ≤ arrived k.data := by
  have hnonneg := (hr.semaphore_zero hvalue).nonneg
  have hunits := hcl.units_eq hasked harrived hr hnobody
  omega

theorem value_eq_zero (hall : arrived k.data = (asked k.data).length) : k.value s = 0 := by
  rw [(hr.semaphore_zero hvalue).value_eq, hcl.units_eq hasked harrived hr hnobody, hall,
    Int.sub_self]
  rfl

end Client.Counts

end Nachos
