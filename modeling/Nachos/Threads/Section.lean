import Nachos.Threads.Lock
import Nachos.Threads.Program

/-!
# Critical sections

A thread inside the kernel is still running the last call of its own code, so what its stack says
about this call is known from its program point. For a program that takes and gives back a
lock only at the border of a set of program points, the thread at one of them holds the lock,
except inside its `Acquire`; so no two threads are in the section at the same time.
-/

namespace Nachos

open Lib

/-! ## The call that a thread is in -/

/-- The frames `fs` are what is left of the call `o` of `me`. -/
inductive Call.Leaves {ρ : Type} (me : Tid) (o : Call ρ) : List (Frame ρ) → Prop
  | call (new : List (Frame ρ)) (h : o.Next me new) : Leaves me o new
  | frame (f : Frame ρ) (new rest : List (Frame ρ)) (h : f.Next me new)
      (hrest : Leaves me o (f :: rest)) : Leaves me o (new ++ rest)

/-- The frame leads to a call of `Acquire` or `Release` on the lock that is not made by the own code
of the thread. -/
def Frame.usesLock {ρ : Type} (l : Obj) : Frame ρ → Prop
  | .call (.acquire l') => l' = l
  | .call (.release l') => l' = l
  | .call (.wait _ l') => l' = l
  | .waitEnqueue _ l' _ => l' = l
  | .waitWoken _ l' _ => l' = l
  | _ => False

section

variable {ρ : Type} {me : Tid} {o : Call ρ} {fs new : List (Frame ρ)} {f g : Frame ρ}

theorem Call.Leaves.inner (h : o.Leaves me fs) : ∀ o', .call o' ∈ fs → o'.isInner = true := by
  induction h with
  | call new h => exact fun o' => h.inner
  | frame f new rest h _ ih =>
      intro o' hmem
      rcases List.mem_append.1 hmem with hmem | hmem
      · exact h.inner hmem
      · exact ih o' (List.mem_cons_of_mem f hmem)

/-- The loop of `P` is that of the call. -/
theorem Call.Leaves.pRetest (h : o.Leaves me fs) {s : ℕ} (hmem : .pRetest s ∈ fs) : o = .P s := by
  induction h with
  | call new h => cases h <;> simp_all
  | frame f new rest h hrest ih =>
      rcases List.mem_append.1 hmem with hmem | hmem
      · cases h with
        | call o' new h =>
            have hinner := hrest.inner o' (by simp)
            cases h <;> simp_all [Call.isInner]
        | pRetestSleep s' =>
            obtain rfl : s = s' := by simpa using hmem
            exact ih List.mem_cons_self
        | _ => simp at hmem
      · exact ih (List.mem_cons_of_mem f hmem)

theorem Call.Next.usesLock (h : o.Next me new) {l : ℕ} (hmem : g ∈ new)
    (hg : g.usesLock (.user l)) : ∃ c, o = .wait c (.user l) := by
  have hall : ∀ g ∈ new, g.usesLock (.user l) → ∃ c, o = .wait c (.user l) := by
    cases h <;> simp [Frame.usesLock]
  exact hall g hmem hg

theorem Frame.Next.usesLock (h : f.Next me new) {l : ℕ} (hmem : g ∈ new)
    (hg : g.usesLock (.user l)) : f.usesLock (.user l) := by
  have hall : ∀ g ∈ new, g.usesLock (.user l) → f.usesLock (.user l) := by
    cases h with
    | call o new h =>
        intro g hmem hg
        obtain ⟨c, rfl⟩ := h.usesLock hmem hg
        rfl
    | _ => simp [Frame.usesLock]
  exact hall g hmem hg

/-- A routine of the kernel uses the lock of a program for `Wait` only. -/
theorem Call.Leaves.usesLock (h : o.Leaves me fs) {l : ℕ} (hmem : g ∈ fs)
    (hg : g.usesLock (.user l)) : ∃ c, o = .wait c (.user l) := by
  induction h generalizing g with
  | call new h => exact h.usesLock hmem hg
  | frame f new rest h _ ih =>
      rcases List.mem_append.1 hmem with hmem | hmem
      · exact ih List.mem_cons_self (h.usesLock hmem hg)
      · exact ih (List.mem_cons_of_mem f hmem) hg

theorem Call.Leaves.acquireRetest (h : o.Leaves me fs) {l : ℕ}
    (hmem : .acquireRetest (.user l) ∈ fs) :
    o = .acquire (.user l) ∨ ∃ c, o = .wait c (.user l) := by
  induction h with
  | call new h => cases h <;> simp_all
  | frame f new rest h hrest ih =>
      rcases List.mem_append.1 hmem with hmem | hmem
      · cases h with
        | call o' new h =>
            have huses : (Frame.call o').usesLock (.user l) := by
              cases h <;> simp_all [Frame.usesLock]
            exact .inr (hrest.usesLock List.mem_cons_self huses)
        | acquireRetestSleep l' =>
            obtain rfl : .user l = l' := by simpa using hmem
            exact ih List.mem_cons_self
        | _ => simp at hmem
      · exact ih (List.mem_cons_of_mem f hmem)

end

namespace Kernel

variable {ρ δ α : Type} {cl : Client ρ δ α} {k k' : Kernel ρ δ} {lab : Label α}
    {start : ρ} {data : δ}
  {initialValue : ℕ → ℤ}

/-- The stack of `t` is what is left of the call `o`, which has brought `t` to its program point. A
new thread is in the call of `Yield` that would leave the same. -/
def Within (cl : Client ρ δ α) (k : Kernel ρ δ) (t : Tid) (o : Call ρ) : Prop :=
  o.Leaves t (k.stack t) ∧
    (o = .yield ∨ ∃ pc d view a d', cl.next t pc d view a = some (o, k.pc t, d'))

theorem Runs.within (h : Runs cl start data initialValue k) (t : Tid) :
    k.stack t = [] ∨ ∃ o, k.Within cl t o := by
  refine Reachable.invariant (I := fun k => ∀ t, k.stack t = [] ∨ ∃ o, k.Within cl t o)
    (fun _ => .inl rfl) ?_ h t
  intro k lab k' hr hi hs t
  have hcur := (Runs.placed hr).current_lt
  -- what a routine of the kernel does to a thread
  have hkernel : k.stack k.currentThread ≠ [] → k'.pc = k.pc → k'.numThreads = k.numThreads →
      k'.stack t = [] ∨ ∃ o, k'.Within cl t o := by
    intro hne hpc hnum
    rcases step_stack_cases hcur hs t with heq | ⟨rfl, hrw⟩ | ⟨hge, hlt, -⟩
    · unfold Within
      rw [heq, hpc]
      exact hi t
    · obtain ⟨o, hleaves, hmade⟩ := (hi k.currentThread).resolve_left hne
      generalize hfs : k.stack k.currentThread = fs at hrw hleaves hne
      generalize hgs : k'.stack k.currentThread = gs at hrw
      refine .inr ⟨o, ?_, hpc ▸ hmade⟩
      rw [hgs]
      cases hrw with
      | own o' new ho hnext => exact absurd rfl hne
      | frame f new rest hnext => exact hleaves.frame f new rest hnext
    · exact absurd (hnum ▸ hlt) (not_lt.2 hge)
  rcases step_advances hcur (Runs.inner hr) hs with
    ⟨a, o, pc, rfl, hnil, hnext, -, he, hadv⟩ | ⟨a, sems, -, -, hne, hq⟩ | ⟨hne, hq⟩
  · obtain ⟨new, hnew, hpush⟩ := exec_pushes (k := k.advance pc k'.data) hcur he
    by_cases htc : t = k.currentThread
    · subst htc
      refine .inr ⟨o, ?_, .inr ⟨_, _, _, a, _, hadv.self.symm ▸ hnext⟩⟩
      have hstack : k'.stack k.currentThread = new := by
        rw [hpush.stack]
        simp [hnil]
      rw [hstack]
      exact .call new hnew
    · rcases step_stack_cases hcur hs t with heq | ⟨htc', -⟩ | ⟨hge, hlt, heq⟩
      · rw [heq]
        by_cases hlt : t < k.numThreads
        · unfold Within
          rw [heq, hadv.others t htc hlt]
          exact hi t
        · exact .inl ((Runs.tidy hr).fresh t (not_lt.1 hlt))
      · exact absurd htc' htc
      · refine .inr ⟨.yield, ?_, .inl rfl⟩
        rw [heq]
        exact .call _ (.yieldAlone .intOn)
  · exact hkernel hne hq.pc hq.numThreads
  · exact hkernel hne hq.pc hq.numThreads

/-- A thread that does not exist yet is at the start of the program. -/
theorem Runs.unborn (h : Runs cl start data initialValue k) {t : Tid} (ht : k.numThreads ≤ t) :
    k.pc t = start := by
  refine Reachable.invariant (I := fun k => ∀ t, k.numThreads ≤ t → k.pc t = start)
    (fun _ _ => rfl) ?_ h t ht
  intro k lab k' hr hi hs t ht
  have hcur := (Runs.placed hr).current_lt
  have hquiet : k'.pc = k.pc → k'.numThreads = k.numThreads → k'.pc t = start := by
    intro hpc hnum
    rw [hpc]
    exact hi t (hnum ▸ ht)
  rcases step_advances hcur (Runs.inner hr) hs with
    ⟨a, o, pc, rfl, hnil, hnext, -, he, hadv⟩ | ⟨a, sems, -, -, -, hq⟩ | ⟨-, hq⟩
  · have hold : k.numThreads ≤ t := hadv.numThreads.trans ht
    have hne : t ≠ k.currentThread := (hcur.trans_le hold).ne'
    rcases exec_program he with hq | ⟨join, start', rfl, hpc, -, hnum, -⟩
    · rw [hq.pc]
      simpa [hne] using hi t hold
    · have hnew : t ≠ k.numThreads := by
        rw [hnum] at ht
        exact (Nat.lt_of_succ_le ht).ne'
      rw [hpc]
      simpa [hne, hnew] using hi t hold
  · exact hquiet hq.pc hq.numThreads
  · exact hquiet hq.pc hq.numThreads

/-- The invariant rule for the program points and the data, for a program in which every thread
starts at `start`, and for the runs whose moves meet a condition. -/
theorem Runs.program_invariant_of_meets {I : (Tid → ρ) → δ → Prop}
    {P : Kernel ρ δ → Label α → Prop} {labs : List (Label α)}
    (hfork : ∀ {t pc d view a c join start' pc' d'},
      cl.next t pc d view a = some (.fork c join start', pc', d') → start' = start)
    (h₀ : I (fun _ => start) data)
    (hown : ∀ (k : Kernel ρ δ) a o pc d, Runs cl start data initialValue k → P k (.act a) →
      I k.pc k.data → k.stack k.currentThread = [] →
        cl.next k.currentThread (k.pc k.currentThread) k.data k.view a = some (o, pc, d) →
          I (Function.update k.pc k.currentThread pc) d)
    (hhandler : ∀ (k : Kernel ρ δ) a sems d, Runs cl start data initialValue k → I k.pc k.data →
      cl.handler a k.data = some (sems, d) → I k.pc d)
    (hmeets : Meets (step cl) P (init start data initialValue) labs)
    (h : runFrom (step cl) (init start data initialValue) labs = .ok k) : I k.pc k.data := by
  refine (invariant_of_meets
    (I := fun k => Runs cl start data initialValue k ∧ I k.pc k.data) ?_ ⟨.refl _ _, h₀⟩ hmeets h).2
  rintro k lab k' ⟨hr, hi⟩ hp hs
  refine ⟨hr.tail hs, ?_⟩
  have hcur := hr.placed.current_lt
  rcases step_advances hcur hr.inner hs with
    ⟨a, o, pc, rfl, hnil, hnext, -, he, -⟩ | ⟨a, sems, -, hhandle, -, hq⟩ | ⟨-, hq⟩
  · have hpc : k'.pc = Function.update k.pc k.currentThread pc := by
      rcases exec_program he with hq | ⟨join, start', rfl, hpc, -, -, -⟩
      · exact hq.pc
      · -- the new thread is where it has been before it was made
        rw [hpc, hfork hnext]
        refine Function.update_eq_self_iff.2 ?_
        have hborn : k.pc k.numThreads = start := hr.unborn le_rfl
        simp [hcur.ne', hborn]
    rw [hpc]
    exact hown k a o pc _ hr hp hi hnil hnext
  · rw [hq.pc]
    exact hhandler k a sems _ hr hi hhandle
  · rw [hq.pc, hq.data]
    exact hi

/-- The same, for every run. -/
theorem Runs.program_invariant {I : (Tid → ρ) → δ → Prop}
    (hfork : ∀ {t pc d view a c join start' pc' d'},
      cl.next t pc d view a = some (.fork c join start', pc', d') → start' = start)
    (h₀ : I (fun _ => start) data)
    (hown : ∀ (k : Kernel ρ δ) a o pc d, Runs cl start data initialValue k → I k.pc k.data →
      k.stack k.currentThread = [] →
        cl.next k.currentThread (k.pc k.currentThread) k.data k.view a = some (o, pc, d) →
          I (Function.update k.pc k.currentThread pc) d)
    (hhandler : ∀ (k : Kernel ρ δ) a sems d, Runs cl start data initialValue k → I k.pc k.data →
      cl.handler a k.data = some (sems, d) → I k.pc d)
    (h : Runs cl start data initialValue k) : I k.pc k.data := by
  obtain ⟨labs, hlabs⟩ := h
  have hmeets : Meets (step cl) (fun _ _ => True) (init start data initialValue) labs :=
    .of_forall fun _ _ _ => trivial
  exact program_invariant_of_meets hfork h₀
    (fun k a o pc d hr _ hi hnil hnext => hown k a o pc d hr hi hnil hnext) hhandler hmeets hlabs

/-- A thread in the loop of `P` on `s` has been brought to its program point by this call. -/
theorem Runs.pRetest (h : Runs cl start data initialValue k) {t : Tid} {s : ℕ}
    (hmem : .pRetest s ∈ k.stack t) :
    ∃ pc d view a d', cl.next t pc d view a = some (.P s, k.pc t, d') := by
  rcases h.within t with hnil | ⟨o, hleaves, hmade⟩
  · simp [hnil] at hmem
  · obtain rfl := hleaves.pRetest hmem
    exact hmade.resolve_left (by simp)

end Kernel

/-! ## Sections -/

/-- The lock is taken at the entry of the section and given back when it is left. -/
inductive Call.Crosses {ρ : Type} (l : ℕ) : Bool → Call ρ → Bool → Prop
  | enter : Crosses l false (.acquire (.user l)) true
  | leave : Crosses l true (.release (.user l)) false
  | stay (inside : Bool) (o : Call ρ) (ho : o.about ≠ some (.lock (.user l)))
      (hwait : ∀ c, o ≠ .wait c (.user l)) : Crosses l inside o inside

theorem Call.Crosses.cases {ρ : Type} {l : ℕ} {b b' : Bool} {o : Call ρ} (h : o.Crosses l b b') :
    (b = false ∧ o = .acquire (.user l) ∧ b' = true) ∨
      (b = true ∧ o = .release (.user l) ∧ b' = false) ∨
        b = b' ∧ o.about ≠ some (.lock (.user l)) ∧ ∀ c, o ≠ .wait c (.user l) := by
  cases h with
  | enter => exact .inl ⟨rfl, rfl, rfl⟩
  | leave => exact .inr (.inl ⟨rfl, rfl, rfl⟩)
  | stay inside o ho hwait => exact .inr (.inr ⟨rfl, ho, hwait⟩)

/-- The program points `inside` are a critical section of the program `cl` under the lock `l`. It is
entered at the points `entry`. -/
structure Client.Guards {ρ δ α : Type} (cl : Client ρ δ α) (l : ℕ) (inside entry : ρ → Bool) :
    Prop where
  crosses : ∀ {t pc d view a o pc' d'}, cl.next t pc d view a = some (o, pc', d') →
    o.Crosses l (inside pc) (inside pc')
  entry : ∀ {t pc d view a pc' d'},
    cl.next t pc d view a = some (.acquire (.user l), pc', d') → entry pc' = true
  fork : ∀ {t pc d view a c join start pc' d'},
    cl.next t pc d view a = some (.fork c join start, pc', d') → inside start = false

namespace Client.Guards

open Kernel

variable {ρ δ α : Type} {cl : Client ρ δ α} {l : ℕ} {inside entry : ρ → Bool} {k k' : Kernel ρ δ}
  {lab : Label α} {start : ρ} {data : δ} {initialValue : ℕ → ℤ}

theorem not_wait (h : cl.Guards l inside entry) {t : Tid} {pc pc' : ρ} {d d' : δ}
    {view : View} {a : α}
    {c : Obj} : cl.next t pc d view a ≠ some (.wait c (.user l), pc', d') := by
  intro hnext
  rcases (h.crosses hnext).cases with ⟨-, ho, -⟩ | ⟨-, ho, -⟩ | ⟨-, -, hwait⟩
  · cases ho
  · cases ho
  · exact hwait c rfl

/-- The routines of the kernel do not take or give back the lock by themselves. -/
theorem not_usesLock (h : cl.Guards l inside entry)
    (hr : Runs cl start data initialValue k) {t : Tid}
    {f : Frame ρ} (hmem : f ∈ k.stack t) : ¬ f.usesLock (.user l) := by
  intro hf
  rcases hr.within t with hnil | ⟨o, hleaves, hmade⟩
  · simp [hnil] at hmem
  · obtain ⟨c, rfl⟩ := hleaves.usesLock hmem hf
    rcases hmade with hyield | ⟨pc, d, view, a, d', hnext⟩
    · cases hyield
    · exact h.not_wait hnext

/-- A thread in the loop of `Acquire` is at an entry of the section. -/
theorem entry_of_retest (h : cl.Guards l inside entry)
    (hr : Runs cl start data initialValue k) {t : Tid}
    (hmem : .acquireRetest (.user l) ∈ k.stack t) : entry (k.pc t) = true := by
  rcases hr.within t with hnil | ⟨o, hleaves, hmade⟩
  · simp [hnil] at hmem
  · rcases hleaves.acquireRetest hmem with rfl | ⟨c, rfl⟩
    · obtain ⟨pc, d, view, a, d', hnext⟩ := hmade.resolve_left (by simp)
      exact h.entry hnext
    · obtain ⟨pc, d, view, a, d', hnext⟩ := hmade.resolve_left (by simp)
      exact absurd hnext h.not_wait

/-- A thread in the section holds the lock or is in the loop of `Acquire`. -/
def Occupied (l : ℕ) (inside : ρ → Bool) (k : Kernel ρ δ) : Prop :=
  ∀ t, inside (k.pc t) = true →
    k.threadHeld (.user l) = some t ∨ .acquireRetest (.user l) ∈ k.stack t

/-- The loop of `Acquire` is left with the lock. -/
theorem acquireLoop_occupies {k k' : Kernel ρ δ} {l : Obj} (h : k.acquireLoop l = .ok k') :
    k'.threadHeld l = some k.currentThread ∨ .acquireRetest l ∈ k'.stack k.currentThread := by
  unfold acquireLoop at h
  split at h
  · simp only [sleep, assertThen_ok, Except.ok.injEq] at h
    obtain ⟨-, rfl⟩ := h
    right
    simp
  · cases h
    left
    simp

/-- A thread in the loop of `Acquire` stays there or gets the lock. -/
theorem retest_step (hr : Runs cl start data initialValue k) (hs : step cl k lab = .ok k') {t : Tid}
    {l : Obj} (hmem : .acquireRetest l ∈ k.stack t) :
    k'.threadHeld l = some t ∨ .acquireRetest l ∈ k'.stack t := by
  have hcur := (Runs.placed hr).current_lt
  by_cases htc : t = k.currentThread
  · subst htc
    rcases step_cases hs with ⟨o, k₀, hissue, he⟩ | ⟨f, rest, hfs, hcall, hres⟩
    · cases hissue with
      | own a o pc d hnil hnext ho => simp [hnil] at hmem
      | inner o rest hfs =>
          obtain ⟨new, -, hpush⟩ := exec_pushes (k := k.setStack rest) hcur he
          right
          rw [hpush.of_pop.1]
          simp_all
    · by_cases hf : f = .acquireRetest l
      · subst hf
        cases lab with
        | go => exact acquireLoop_occupies (k := k.setStack rest) hres
        | _ => cases hres
      · obtain ⟨new, -, hpush⟩ := resume_pushes (k := k.setStack rest) hcur hres
        right
        rw [hpush.of_pop.1]
        simp_all [Ne.symm hf]
  · right
    rcases step_stack_cases hcur hs t with heq | ⟨htc', -⟩ | ⟨hge, -⟩
    · exact heq ▸ hmem
    · exact absurd htc' htc
    · simp [(Runs.tidy hr).fresh t hge] at hmem

/-- The lock is given back by the own code of its holder only. -/
theorem held_step (h : cl.Guards l inside entry) (hr : Runs cl start data initialValue k)
    (hs : step cl k lab = .ok k') {t : Tid} (hheld : k.threadHeld (.user l) = some t) :
    k'.threadHeld (.user l) = some t ∨ t = k.currentThread ∧ k.stack k.currentThread = [] ∧
      ∃ a pc d, lab = .act a ∧
        cl.next k.currentThread (k.pc k.currentThread) k.data k.view a =
          some (.release (.user l), pc, d) := by
  rcases (hr.lock (.user l)).held_step hr.tidy hr.placed hs hheld with hstill | ⟨ht, k₀, hissue, -⟩
  · exact .inl hstill
  · cases hissue with
    | own a o pc d hnil hnext ho => exact .inr ⟨ht, hnil, a, pc, d, rfl, hnext⟩
    | inner o rest hfs =>
        have hmem : .call (.release (.user l)) ∈ k.stack k.currentThread := by simp [hfs]
        exact absurd rfl (h.not_usesLock hr hmem)

theorem occupied (h : cl.Guards l inside entry) (hstart : inside start = false)
    (hr : Runs cl start data initialValue k) : Occupied l inside k := by
  refine Reachable.invariant (I := Occupied l inside) ?_ ?_ hr
  · intro t ht
    have hout : inside start = true := ht
    rw [hstart] at hout
    cases hout
  intro k lab k' hr hi hs t ht
  replace hr : Runs cl start data initialValue k := hr
  have hr' : Runs cl start data initialValue k' := hr.tail hs
  have hcur := hr.placed.current_lt
  -- a thread that has been in the section and does not leave it
  have hkeep : inside (k.pc t) = true → (t = k.currentThread → k.stack k.currentThread = [] →
      ∀ a pc d, lab = .act a → cl.next k.currentThread (k.pc k.currentThread) k.data k.view a ≠
        some (.release (.user l), pc, d)) →
          k'.threadHeld (.user l) = some t ∨ .acquireRetest (.user l) ∈ k'.stack t := by
    intro hin hno
    rcases hi t hin with hheld | hmem
    · rcases h.held_step hr hs hheld with hstill | ⟨rfl, hnil, a, pc, d, hlab, hnext⟩
      · exact .inl hstill
      · exact absurd hnext (hno rfl hnil a pc d hlab)
    · exact retest_step hr hs hmem
  rcases step_advances hcur hr.inner hs with
    ⟨a, o, pc, rfl, hnil, hnext, -, he, hadv⟩ | ⟨a, sems, -, -, hne, hq⟩ | ⟨hne, hq⟩
  · have hlt : t < k'.numThreads := by
      by_contra hge
      rw [hr'.unborn (not_lt.1 hge), hstart] at ht
      cases ht
    rcases hadv.pc_cases hlt with ⟨rfl, hpc⟩ | ⟨htc, -, hpc⟩ | ⟨rfl, join, start', rfl, hpc⟩
    · rw [hpc] at ht
      rcases (h.crosses hnext).cases with ⟨-, rfl, -⟩ | ⟨-, -, hout⟩ | ⟨hstay, ho, -⟩
      · simp only [exec, acquire, assertThen_ok] at he
        have hloop := acquireLoop_occupies he.2
        exact hloop
      · rw [hout] at ht
        cases ht
      · refine hkeep (hstay.trans ht) ?_
        intro _ _ a' pc' d' hlab hrelease
        cases hlab
        rw [hnext] at hrelease
        cases hrelease
        exact ho rfl
    · rw [hpc] at ht
      exact hkeep ht fun heq => absurd heq htc
    · rw [hpc, h.fork hnext] at ht
      cases ht
  · rw [hq.pc] at ht
    exact hkeep ht fun _ hnil => absurd hnil hne
  · rw [hq.pc] at ht
    exact hkeep ht fun _ hnil => absurd hnil hne

/-- A thread that has come past the entry of the section, or is in its own code there, holds the
lock. -/
theorem holder (h : cl.Guards l inside entry) (hstart : inside start = false)
    (hr : Runs cl start data initialValue k) {t : Tid} (hin : inside (k.pc t) = true)
    (hpast : entry (k.pc t) = false ∨ k.stack t = []) : k.threadHeld (.user l) = some t := by
  refine (h.occupied hstart hr t hin).resolve_right ?_
  intro hmem
  rcases hpast with hpast | hnil
  · rw [h.entry_of_retest hr hmem] at hpast
    cases hpast
  · simp [hnil] at hmem

/-- No two threads are in the section. -/
theorem unique (h : cl.Guards l inside entry) (hstart : inside start = false)
    (hr : Runs cl start data initialValue k) {t u : Tid} (ht : inside (k.pc t) = true)
    (hu : inside (k.pc u) = true) (htpast : entry (k.pc t) = false ∨ k.stack t = [])
    (hupast : entry (k.pc u) = false ∨ k.stack u = []) : t = u := by
  have hheld := h.holder hstart hr ht htpast
  rw [h.holder hstart hr hu hupast] at hheld
  exact (Option.some.inj hheld).symm

end Client.Guards

end Nachos
