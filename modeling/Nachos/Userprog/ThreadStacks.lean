import Nachos.Userprog.TableEntries

/-!
# The stacks of the threads of a process

`Fork2` reserves a stack for the new thread at the end of the address space, but the thread
gets its stack register from `InitRegisters`, which puts it at the end of the address space of
the moment when the thread first runs. The stacks of two threads of a process are
therefore disjoint exactly when a Fork of this process reserves a stack between the first runs
of the two.
-/

namespace Nachos

open Lib

namespace UserThreads

open Kernel

/-- The step is the `InitRegisters` of a thread of the address space. -/
def Begins (space : ℕ) (k : Kernel Pc Data) (_ : Label Act) : Prop :=
  k.stack k.currentThread = [] ∧ (∃ func, k.pc k.currentThread = .start func) ∧
    k.data.mySpace k.currentThread = space

/-- The loop of `allocateThreadSpace` ends here, in an address space of `numPages` pages. -/
def Pc.commits (numPages : ℕ) : Pc → Bool
  | .forkFound _ _ i found => found && decide (numPages + newPages ≤ i + 1)
  | _ => false

/-- The step is the end of an `allocateThreadSpace` of the address space. -/
def Reserves (space : ℕ) (k : Kernel Pc Data) (_ : Label Act) : Prop :=
  k.stack k.currentThread = [] ∧
    (k.pc k.currentThread).commits (k.data.spaces space).numPages = true ∧
      k.data.mySpace k.currentThread = space

/-- The stacks, of `UserStackSize` bytes and ending at `StackReg + 16`, of any two threads of
one address space that have run are disjoint. -/
def StacksDisjoint (k : Kernel Pc Data) : Prop :=
  ∀ t < k.numThreads, ∀ u < k.numThreads, t ≠ u → k.data.mySpace t = k.data.mySpace u →
    ∀ v w, k.data.stackReg t = some v → k.data.stackReg u = some w →
      v + 16 ≤ w + 16 - UserStackSize ∨ w + 16 ≤ v + 16 - UserStackSize

/-- The stack register at the end of the address space. -/
def Data.topOf (d : Data) (space : ℕ) : ℤ := (d.spaces space).numPages * pageSize - 16

/-- A thread has its stack at the end of the address space. -/
def AtTop (space : ℕ) (k : Kernel Pc Data) : Prop :=
  ∃ t < k.numThreads, k.data.mySpace t = space ∧ k.data.stackReg t = some (k.data.topOf space)

theorem Pc.commits_of_calm {pc : Pc} (h : pc.calm = true) (numPages : ℕ) :
    pc.commits numPages = false := by
  cases pc with
  | forkFound func newTable i found => cases h
  | _ => rfl

theorem Pc.commits_of_returns {pc : Pc} (h : pc.returns = true) (numPages : ℕ) :
    pc.commits numPages = false := by
  cases pc with
  | forkFound func newTable i found =>
      cases found with
      | false => rfl
      | true => cases h
  | _ => rfl

theorem Pc.ne_start_of_calm {pc : Pc} (h : pc.calm = true) (func : Option (BitVec 32)) :
    pc ≠ .start func := by
  rintro rfl
  cases h

/-! ## Turns and the stacks -/

section

variable {t : Tid} {pc pc' : Pc} {d d' : Data} {view : View} {o : Call Pc}

theorem Turn.numSpaces_le (h : Turn t d view pc o pc' d') : d.numSpaces ≤ d'.numSpaces := by
  cases h <;> simp [Data.setResult, Data.newSpace, Data.newThread, Data.forked, Data.enlarge]

theorem Turn.space (h : Turn t d view pc o pc' d') {object : ℕ} (hlt : object < d.numObjects) :
    d'.space object = d.space object := by
  cases h with
  | exec pc child join numPages h => simp [Data.forked, Data.newThread, Data.newSpace, hlt.ne]
  | forkCommit func newTable i h => simp [Data.newThread, Data.enlarge, hlt.ne]
  | _ => rfl

/-- A new object has an address space that exists. -/
theorem Turn.space_new (h : Turn t d view pc o pc' d') (hmy : d.mySpace t < d.numSpaces)
    {object : ℕ} (hge : d.numObjects ≤ object) (hlt : object < d'.numObjects) :
    d'.space object < d'.numSpaces := by
  cases h with
  | exec pc child join numPages h =>
      obtain rfl : object = d.numObjects := le_antisymm (Nat.lt_succ_iff.1 hlt) hge
      simp [Data.forked, Data.newThread, Data.newSpace]
  | forkCommit func newTable i h =>
      obtain rfl : object = d.numObjects := le_antisymm (Nat.lt_succ_iff.1 hlt) hge
      simpa [Data.newThread, Data.enlarge] using hmy
  | _ => exact absurd hlt (not_lt.2 hge)

theorem Turn.self_lt_of_fork (h : Turn t d view pc o pc' d')
    (hmade : ∀ object, pc.made = some object → object < d.numObjects) {u : Tid} {join : ℤ}
    {start : Pc} (ho : o = .fork u join start) : d'.self u < d'.numObjects := by
  cases h with
  | exec pc child join numPages h =>
      cases ho
      simp [Data.forked, Data.newThread, Data.newSpace]
  | forkFork func object child =>
      cases ho
      simpa [Data.forked] using hmade object rfl
  | other pc pc' o h h' hf =>
      subst ho
      cases hf
  | _ => cases ho

/-- The address spaces that exist grow by the stack that a Fork reserves. -/
theorem Turn.topOf (h : Turn t d view pc o pc' d') {space : ℕ} (hlt : space < d.numSpaces) :
    (pc.commits (d.spaces space).numPages = true ∧ d.mySpace t = space ∧
      d'.topOf space = d.topOf space + UserStackSize) ∨
      (pc.commits (d.spaces space).numPages = false ∨ d.mySpace t ≠ space) ∧
        d'.topOf space = d.topOf space := by
  cases h with
  | forkCommit func newTable i h =>
      by_cases hsp : d.mySpace t = space
      · subst hsp
        refine .inl ⟨by simpa [Pc.commits] using h, rfl, ?_⟩
        simp only [Data.topOf, Data.newThread, Data.enlarge, Function.update_self,
          newPages, pageSize,
          UserStackSize]
        omega
      · refine .inr ⟨.inr hsp, ?_⟩
        simp [Data.topOf, Data.newThread, Data.enlarge, Ne.symm hsp]
  | forkNext func newTable i h hsize =>
      by_cases hsp : d.mySpace t = space
      · subst hsp
        exact .inr ⟨.inl (by simpa [Pc.commits] using h), rfl⟩
      · exact .inr ⟨.inr hsp, rfl⟩
  | exec pc child join numPages h =>
      refine .inr ⟨.inl (Pc.commits_of_calm h _), ?_⟩
      simp [Data.topOf, Data.forked, Data.newThread, Data.newSpace, hlt.ne]
  | other pc pc' o h h' ho => exact .inr ⟨.inl (Pc.commits_of_calm h _), rfl⟩
  | fork pc func h => exact .inr ⟨.inl (Pc.commits_of_calm h _), rfl⟩
  | join pc id h => exact .inr ⟨.inl (Pc.commits_of_calm h _), rfl⟩
  | exit pc status h => exact .inr ⟨.inl (Pc.commits_of_calm h _), rfl⟩
  | ret pc value h => exact .inr ⟨.inl (Pc.commits_of_returns h _), rfl⟩
  | forkFree pc i j h => exact .inr ⟨.inl (Pc.commits_of_returns h _), rfl⟩
  | _ => exact .inr ⟨.inl rfl, rfl⟩

/-- A thread gets its stack register when it begins; a thread that is forked has none. -/
theorem Turn.stackReg (h : Turn t d view pc o pc' d') :
    ((∃ func, pc = .start func) ∧
      d'.stackReg = Function.update d.stackReg t (some (d.initialStackReg t)) ∧
        (∀ func, pc' ≠ .start func) ∧ ∀ u join start, o ≠ .fork u join start) ∨
      (∀ func, pc ≠ .start func) ∧ (∀ func, pc' ≠ .start func) ∧
        ((d'.stackReg = d.stackReg ∧ ∀ u join start, o ≠ .fork u join start) ∨
          ∃ u join start, o = .fork u join start ∧
            d'.stackReg = Function.update d.stackReg u none) := by
  cases h with
  | begins func pc' h =>
      exact .inl ⟨⟨func, rfl⟩, rfl, Pc.ne_start_of_calm h, fun _ _ _ => by simp⟩
  | exec pc child join numPages h =>
      exact .inr ⟨Pc.ne_start_of_calm h, by simp, .inr ⟨child, join, _, rfl, rfl⟩⟩
  | forkFork func object child =>
      exact .inr ⟨by simp, by simp, .inr ⟨child, 1, _, rfl, rfl⟩⟩
  | other pc pc' o h h' ho =>
      refine .inr ⟨Pc.ne_start_of_calm h, Pc.ne_start_of_calm h', .inl ⟨rfl, ?_⟩⟩
      rintro u join start rfl
      cases ho
  | ret pc value h =>
      refine .inr ⟨?_, by simp, .inl ⟨rfl, by simp⟩⟩
      rintro func rfl
      cases h
  | forkFree pc i j h =>
      refine .inr ⟨?_, by simp, .inl ⟨rfl, by simp⟩⟩
      rintro func rfl
      cases h
  | fork pc func h => exact .inr ⟨Pc.ne_start_of_calm h, by simp, .inl ⟨rfl, by simp⟩⟩
  | join pc id h => exact .inr ⟨Pc.ne_start_of_calm h, by simp, .inl ⟨rfl, by simp⟩⟩
  | exit pc status h => exact .inr ⟨Pc.ne_start_of_calm h, by simp, .inl ⟨rfl, by simp⟩⟩
  | _ => exact .inr ⟨by simp, by simp, .inl ⟨rfl, by simp⟩⟩

end

/-! ## Runs -/

structure Spaced (k : Kernel Pc Data) : Prop where
  self_lt : ∀ t < k.numThreads, k.data.self t < k.data.numObjects
  space_lt : ∀ object < k.data.numObjects, k.data.space object < k.data.numSpaces
  made : ∀ t < k.numThreads, ∀ object, (k.pc t).made = some object → object < k.data.numObjects
  fresh : ∀ t < k.numThreads, (∃ func, k.pc t = .start func) → k.data.stackReg t = none
  below : ∀ t < k.numThreads, ∀ v, k.data.stackReg t = some v →
    ∃ j : ℕ, v = k.data.topOf (k.data.mySpace t) - j * UserStackSize

/-- What a step does to the address spaces and to the stack registers. -/
structure Grows (k : Kernel Pc Data) (lab : Label Act) (k' : Kernel Pc Data) : Prop where
  numThreads : k.numThreads ≤ k'.numThreads
  mySpace : ∀ t < k.numThreads, k'.data.mySpace t = k.data.mySpace t
  top : ∀ space < k.data.numSpaces,
    (Reserves space k lab ∧ k'.data.topOf space = k.data.topOf space + UserStackSize) ∨
      ¬ Reserves space k lab ∧ k'.data.topOf space = k.data.topOf space
  regs : (Begins (k.data.mySpace k.currentThread) k lab ∧ k'.numThreads = k.numThreads ∧
      k'.data.stackReg = Function.update k.data.stackReg k.currentThread
        (some (k.data.topOf (k.data.mySpace k.currentThread)))) ∨
    (∀ space, ¬ Begins space k lab) ∧
      ∀ t < k'.numThreads, k'.data.stackReg t = if t < k.numThreads then k.data.stackReg t else none

variable {k k' : Kernel Pc Data} {lab : Label Act}

theorem Spaced.mySpace_lt (h : Spaced k) {t : Tid} (ht : t < k.numThreads) :
    k.data.mySpace t < k.data.numSpaces :=
  h.space_lt _ (h.self_lt t ht)

theorem Grows.of_quiet (hne : k.stack k.currentThread ≠ []) (hq : Quiet k k') : Grows k lab k' := by
  refine ⟨hq.numThreads.ge, fun t _ => by rw [hq.data], fun space _ =>
    .inr ⟨fun hc => hne hc.1, ?_⟩,
    .inr ⟨fun space hc => hne hc.1, ?_⟩⟩
  · rw [hq.data]
  · intro t ht
    rw [hq.numThreads] at ht
    rw [if_pos ht, hq.data]

section

variable {o : Call Pc} {pc : Pc}

theorem Spaced.mySpace_of_turn (h : Spaced k) (hadv : Advances k k' o pc)
    (hturn : Turn k.currentThread k.data k.view (k.pc k.currentThread) o pc k'.data) {t : Tid}
    (ht : t < k.numThreads) : k'.data.self t = k.data.self t ∧
      k'.data.mySpace t = k.data.mySpace t := by
  have hself : k'.data.self t = k.data.self t := by
    refine hturn.self fun join start ho => ?_
    exact absurd (hadv.forked t join start ho).1 ht.ne
  refine ⟨hself, ?_⟩
  unfold Data.mySpace
  rw [hself, hturn.space (h.self_lt t ht)]

theorem Spaced.grows_of_turn (h : Spaced k)
    (hst : k.stack k.currentThread = []) (hadv : Advances k k' o pc)
    (hturn : Turn k.currentThread k.data k.view (k.pc k.currentThread) o pc k'.data) :
    Grows k lab k' := by
  have hborn : (∀ u join start, o ≠ .fork u join start) → k'.numThreads = k.numThreads := by
    intro hno
    by_contra hne
    obtain ⟨-, join, start, ho, -⟩ := hadv.born k.numThreads le_rfl
      (lt_of_le_of_ne hadv.numThreads (Ne.symm hne))
    exact hno _ _ _ ho
  refine ⟨hadv.numThreads, fun t ht => (h.mySpace_of_turn hadv hturn ht).2, ?_, ?_⟩
  · intro space hlt
    rcases hturn.topOf hlt with ⟨hc, hsp, htop⟩ | ⟨hc, htop⟩
    · exact .inl ⟨⟨hst, hc, hsp⟩, htop⟩
    · refine .inr ⟨fun hres => ?_, htop⟩
      rcases hc with hc | hc
      · rw [hres.2.1] at hc
        cases hc
      · exact hc hres.2.2
  · rcases hturn.stackReg with ⟨hfunc, hreg, -, hno⟩ | ⟨hfunc, -, hreg⟩
    · exact .inl ⟨⟨hst, hfunc, rfl⟩, hborn hno, hreg⟩
    · refine .inr ⟨fun space hb => ?_, fun t ht => ?_⟩
      · obtain ⟨func, hpc⟩ := hb.2.1
        exact hfunc func hpc
      · rcases hreg with ⟨hreg, hno⟩ | ⟨u, join, start, ho, hreg⟩
        · rw [hborn hno] at ht
          rw [if_pos ht, hreg]
        · obtain ⟨rfl, hnum⟩ := hadv.forked u join start ho
          rw [hreg]
          by_cases hlt : t < k.numThreads
          · rw [if_pos hlt, Function.update_of_ne hlt.ne]
          · rw [hnum] at ht
            obtain rfl : t = k.numThreads := le_antisymm (Nat.lt_succ_iff.1 ht) (not_lt.1 hlt)
            rw [if_neg hlt, Function.update_self]

/-- The bounds on the stack registers, which any step keeps. -/
theorem Spaced.below_of_grows (h : Spaced k) (hg : Grows k lab k') {t : Tid}
    (ht : t < k'.numThreads) {v : ℤ} (hv : k'.data.stackReg t = some v) :
    ∃ j : ℕ, v = k'.data.topOf (k'.data.mySpace t) - j * UserStackSize := by
  have hkeep : ∀ t < k.numThreads, ∀ j : ℕ, ∃ j' : ℕ,
      k.data.topOf (k.data.mySpace t) - j * UserStackSize =
        k'.data.topOf (k'.data.mySpace t) - j' * UserStackSize := by
    intro t ht j
    rw [hg.mySpace t ht]
    rcases hg.top _ (h.mySpace_lt ht) with ⟨-, htop⟩ | ⟨-, htop⟩
    · refine ⟨j + 1, ?_⟩
      rw [htop, UserStackSize]
      omega
    · exact ⟨j, by rw [htop]⟩
  rcases hg.regs with ⟨hb, hnum, hreg⟩ | ⟨-, hreg⟩
  · rw [hnum] at ht
    rw [hreg] at hv
    by_cases htc : t = k.currentThread
    · subst htc
      rw [Function.update_self, Option.some.injEq] at hv
      subst hv
      simpa using hkeep _ ht 0
    · rw [Function.update_of_ne htc] at hv
      obtain ⟨j, rfl⟩ := h.below t ht v hv
      exact hkeep t ht j
  · rw [hreg t ht] at hv
    split at hv
    · rename_i hlt
      obtain ⟨j, rfl⟩ := h.below t hlt v hv
      exact hkeep t hlt j
    · cases hv

theorem Spaced.of_turn (h : Spaced k) (hcur : k.currentThread < k.numThreads)
    (hst : k.stack k.currentThread = []) (hadv : Advances k k' o pc)
    (hturn : Turn k.currentThread k.data k.view (k.pc k.currentThread) o pc k'.data) :
    Spaced k' := by
  have hnum := hturn.numObjects_le
  have hg : Grows k .go k' := h.grows_of_turn hst hadv hturn
  have hne : ∀ func, pc ≠ .start func := by
    rcases hturn.stackReg with ⟨-, -, hne, -⟩ | ⟨-, hne, -⟩
    · exact hne
    · exact hne
  refine ⟨?_, ?_, ?_, ?_, fun t ht v => h.below_of_grows hg ht⟩
  · intro t ht
    by_cases hlt : t < k.numThreads
    · rw [(h.mySpace_of_turn hadv hturn hlt).1]
      exact (h.self_lt t hlt).trans_le hnum
    · obtain ⟨-, join, start, ho, -⟩ := hadv.born t (not_lt.1 hlt) ht
      exact hturn.self_lt_of_fork (fun object => h.made _ hcur object) ho
  · intro object hlt
    by_cases hold : object < k.data.numObjects
    · rw [hturn.space hold]
      exact (h.space_lt object hold).trans_le hturn.numSpaces_le
    · exact hturn.space_new (h.mySpace_lt hcur) (not_lt.1 hold) hlt
  · intro t ht object hobj
    rcases hturn.pc_cases hadv ht with ⟨rfl, hpc⟩ | ⟨-, hlt, hpc⟩ | ⟨func, hpc⟩
    · rw [hpc] at hobj
      rcases hturn.made hobj with ⟨hold, -⟩ | ⟨-, -, hlt⟩
      · exact (h.made _ hcur object hold).trans_le hnum
      · exact hlt
    · rw [hpc] at hobj
      exact (h.made t hlt object hobj).trans_le hnum
    · rw [hpc] at hobj
      cases hobj
  · rintro t ht ⟨func, hpc⟩
    have htc : t ≠ k.currentThread := by
      rintro rfl
      exact hne func (hadv.self.symm.trans hpc)
    have hold : t < k.numThreads → k.data.stackReg t = none := fun hlt =>
      h.fresh t hlt ⟨func, (hadv.others t htc hlt).symm.trans hpc⟩
    rcases hg.regs with ⟨-, heq, hreg⟩ | ⟨-, hreg⟩
    · rw [hreg, Function.update_of_ne htc]
      exact hold (heq ▸ ht)
    · rw [hreg t ht]
      split
      · exact hold ‹_›
      · rfl

end

theorem Spaced.step {d₀ : Data} {initialValue : ℕ → ℤ} (h : Spaced k)
    (hr : Runs client (.start (some 0)) d₀ initialValue k)
    (hs : Kernel.step client k lab = .ok k') :
    Spaced k' ∧ Grows k lab k' := by
  rcases step_turn hr.placed.current_lt hr.inner hs with
    ⟨a, o, pc, -, hst, hturn, -, hadv⟩ | ⟨hne, hq⟩
  · exact ⟨h.of_turn hr.placed.current_lt hst hadv hturn, h.grows_of_turn hst hadv hturn⟩
  · have hg : Grows k lab k' := .of_quiet hne hq
    refine ⟨⟨?_, ?_, ?_, ?_, fun t ht v => h.below_of_grows hg ht⟩, hg⟩
    · rw [hq.data, hq.numThreads]
      exact h.self_lt
    · rw [hq.data]
      exact h.space_lt
    · rw [hq.data, hq.numThreads, hq.pc]
      exact h.made
    · rw [hq.data, hq.numThreads, hq.pc]
      exact h.fresh

theorem Spaced.init (numPages : ℕ) (joinValue : ℕ → ℤ) (initialValue : ℕ → ℤ) :
    Spaced (initial numPages joinValue initialValue) := by
  refine ⟨fun _ _ => Nat.one_pos, fun _ _ => Nat.one_pos, ?_, fun _ _ _ => rfl, ?_⟩
  · intro t _ object hobj
    cases hobj
  · intro t _ v hv
    cases hv

theorem spaced_of_runs {numPages : ℕ} {joinValue : ℕ → ℤ} {initialValue : ℕ → ℤ}
    (h : Reachable (Kernel.step client) (initial numPages joinValue initialValue) k) :
    Runs client (.start (some 0)) (start numPages joinValue) initialValue k ∧ Spaced k := by
  refine ⟨h, ?_⟩
  refine Reachable.invariant (.init numPages joinValue initialValue) ?_ h
  exact fun k lab k' hk hi hs => (hi.step hk hs).1

/-! ## Disjoint stacks -/

/-- No two threads of one address space have the same stack register. -/
def Distinct (k : Kernel Pc Data) : Prop :=
  ∀ t < k.numThreads, ∀ u < k.numThreads, t ≠ u → k.data.mySpace t = k.data.mySpace u →
    ∀ v, k.data.stackReg t = some v → k.data.stackReg u ≠ some v

theorem Spaced.disjoint_iff (h : Spaced k) : StacksDisjoint k ↔ Distinct k := by
  constructor
  · intro hd t ht u hu hne hsp v hv hw
    have := hd t ht u hu hne hsp v v hv hw
    rw [UserStackSize] at this
    omega
  · intro hd t ht u hu hne hsp v w hv hw
    obtain ⟨i, hi⟩ := h.below t ht v hv
    obtain ⟨j, hj⟩ := h.below u hu w hw
    rw [← hsp] at hj
    have hij : i ≠ j := by
      rintro rfl
      exact hd t ht u hu hne hsp v hv (hw.trans (by rw [hi, hj]))
    rw [UserStackSize] at hi hj ⊢
    omega

/-- The stack registers stay distinct unless a thread begins where another one has its stack. -/
theorem Grows.distinct_iff (hg : Grows k lab k') (h : Spaced k)
    (hcur : k.currentThread < k.numThreads) :
    Distinct k' ↔ Distinct k ∧ ∀ space, Begins space k lab → ¬ AtTop space k := by
  rcases hg.regs with ⟨hb, hnum, hreg⟩ | ⟨hno, hreg⟩
  · have hfresh := h.fresh _ hcur hb.2.1
    have hne : ∀ t v, k.data.stackReg t = some v → t ≠ k.currentThread := by
      rintro t v hv rfl
      rw [hfresh] at hv
      cases hv
    constructor
    · intro hd
      refine ⟨?_, ?_⟩
      · intro t ht u hu htu hsp v hv hw
        rw [← hg.mySpace t ht, ← hg.mySpace u hu] at hsp
        refine hd t (hnum ▸ ht) u (hnum ▸ hu) htu hsp v ?_ ?_
        · rw [hreg, Function.update_of_ne (hne t v hv), hv]
        · rw [hreg, Function.update_of_ne (hne u v hw), hw]
      · rintro space ⟨-, -, rfl⟩ ⟨t, ht, hsp, hv⟩
        rw [← hg.mySpace t ht, ← hg.mySpace _ hcur] at hsp
        refine hd t (hnum ▸ ht) _ (hnum ▸ hcur) (hne t _ hv) hsp
          (k.data.topOf (k.data.mySpace k.currentThread)) ?_ ?_
        · rw [hreg, Function.update_of_ne (hne t _ hv), hv]
        · rw [hreg, Function.update_self]
    · rintro ⟨hd, htop⟩ t ht u hu htu hsp v hv hw
      rw [hnum] at ht hu
      rw [hg.mySpace t ht, hg.mySpace u hu] at hsp
      have htop := htop _ hb
      rw [hreg] at hv hw
      by_cases htc : t = k.currentThread
      · subst htc
        rw [Function.update_self] at hv
        rw [Function.update_of_ne htu.symm] at hw
        exact htop ⟨u, hu, hsp.symm, by rw [hw, hv]⟩
      · rw [Function.update_of_ne htc] at hv
        by_cases huc : u = k.currentThread
        · subst huc
          rw [Function.update_self] at hw
          exact htop ⟨t, ht, hsp, by rw [hv, hw]⟩
        · rw [Function.update_of_ne huc] at hw
          exact hd t ht u hu htu hsp v hv hw
  · have hold : ∀ t < k'.numThreads, ∀ v, k'.data.stackReg t = some v →
        t < k.numThreads ∧ k.data.stackReg t = some v := by
      intro t ht v hv
      rw [hreg t ht] at hv
      split at hv
      · exact ⟨‹_›, hv⟩
      · cases hv
    have hnew : ∀ t < k.numThreads, k'.data.stackReg t = k.data.stackReg t := by
      intro t ht
      rw [hreg t (ht.trans_le hg.numThreads), if_pos ht]
    rw [and_iff_left (fun space hb => absurd hb (hno space))]
    constructor
    · intro hd t ht u hu htu hsp v hv hw
      rw [← hg.mySpace t ht, ← hg.mySpace u hu] at hsp
      exact hd t (ht.trans_le hg.numThreads) u (hu.trans_le hg.numThreads) htu hsp v
        ((hnew t ht).trans hv) ((hnew u hu).trans hw)
    · intro hd t ht u hu htu hsp v hv hw
      obtain ⟨ht, hv⟩ := hold t ht v hv
      obtain ⟨hu, hw⟩ := hold u hu v hw
      rw [hg.mySpace t ht, hg.mySpace u hu] at hsp
      exact hd t ht u hu htu hsp v hv hw

/-- A thread that begins in an address space where no thread is at the top puts itself there. -/
theorem Grows.atTop_of_begins (hg : Grows k lab k') (h : Spaced k)
    (hcur : k.currentThread < k.numThreads) {space : ℕ} (hb : Begins space k lab) :
    AtTop space k' := by
  obtain ⟨hst, ⟨func, hpc⟩, rfl⟩ := hb
  have htop : k'.data.topOf (k.data.mySpace k.currentThread) =
      k.data.topOf (k.data.mySpace k.currentThread) := by
    rcases hg.top _ (h.mySpace_lt hcur) with ⟨⟨-, hres, -⟩, -⟩ | ⟨-, htop⟩
    · simp [hpc, Pc.commits] at hres
    · exact htop
  rcases hg.regs with ⟨-, hnum, hreg⟩ | ⟨hno, -⟩
  · exact ⟨_, hcur.trans_le hg.numThreads, hg.mySpace _ hcur,
      by rw [hreg, Function.update_self, htop]⟩
  · exact absurd ⟨hst, ⟨func, hpc⟩, rfl⟩ (hno (k.data.mySpace k.currentThread))

/-- Nobody is at the top of an address space after a Fork has reserved a stack. -/
theorem Grows.not_atTop_of_reserves (hg : Grows k lab k') (h : Spaced k) {space : ℕ}
    (hres : Reserves space k lab) :
    ¬ AtTop space k' := by
  rintro ⟨t, ht, rfl, hv⟩
  have hnob : ∀ space', ¬ Begins space' k lab := by
    rintro space' ⟨-, ⟨func, hpc⟩, -⟩
    simp [Reserves, hpc, Pc.commits] at hres
  rcases hg.regs with ⟨hb, -⟩ | ⟨-, hreg⟩
  · exact hnob _ hb
  · rw [hreg t ht] at hv
    split at hv
    · rename_i hlt
      obtain ⟨j, hj⟩ := h.below t hlt _ hv
      rw [hg.mySpace t hlt] at hres hj
      rcases hg.top _ (h.mySpace_lt hlt) with ⟨-, htop⟩ | ⟨hnot, -⟩
      · rw [htop, UserStackSize] at hj
        omega
      · exact hnot hres
    · cases hv

theorem Grows.atTop_iff (hg : Grows k lab k') (h : Spaced k) {space : ℕ}
    (hnob : ¬ Begins space k lab)
    (hnor : ¬ Reserves space k lab) : AtTop space k' ↔ AtTop space k := by
  have hreg : ∀ t < k.numThreads, k.data.mySpace t = space →
      k'.data.stackReg t = k.data.stackReg t := by
    intro t ht hsp
    rcases hg.regs with ⟨hb, -, hreg⟩ | ⟨-, hreg⟩
    · have htc : t ≠ k.currentThread := by
        rintro rfl
        exact hnob (hsp ▸ hb)
      rw [hreg, Function.update_of_ne htc]
    · rw [hreg t (ht.trans_le hg.numThreads), if_pos ht]
  have htop : ∀ t < k.numThreads, k.data.mySpace t = space →
      k'.data.topOf space = k.data.topOf space := by
    rintro t ht rfl
    rcases hg.top _ (h.mySpace_lt ht) with ⟨hres, -⟩ | ⟨-, htop⟩
    · exact absurd hres hnor
    · exact htop
  constructor
  · rintro ⟨t, ht, hsp, hv⟩
    have hlt : t < k.numThreads := by
      rcases hg.regs with ⟨-, hnum, -⟩ | ⟨-, hreg⟩
      · exact hnum ▸ ht
      · rw [hreg t ht] at hv
        split at hv
        · assumption
        · cases hv
    rw [hg.mySpace t hlt] at hsp
    rw [hreg t hlt hsp, htop t hlt hsp] at hv
    exact ⟨t, hlt, hsp, hv⟩
  · rintro ⟨t, ht, hsp, hv⟩
    exact ⟨t, ht.trans_le hg.numThreads, (hg.mySpace t ht).trans hsp,
      by rw [hreg t ht hsp, htop t ht hsp, hv]⟩

section

variable {numPages : ℕ} {joinValue : ℕ → ℤ} {initialValue : ℕ → ℤ}

/-- The stack registers are distinct after the runs in which every thread begins where no other
one has its stack. -/
theorem distinct_iff_meets (hk : Reachable (Kernel.step client)
    (initial numPages joinValue initialValue) k) {labs : List (Label Act)}
    (hrun : runFrom (Kernel.step client) k labs = .ok k') :
    Distinct k' ↔ Distinct k ∧
      ∀ space, Meets (Kernel.step client) (fun k lab => Begins space k lab →
        ¬ AtTop space k) k labs := by
  induction labs generalizing k with
  | nil =>
      cases hrun
      exact ⟨fun hd => ⟨hd, fun _ => trivial⟩, And.left⟩
  | cons lab labs ih =>
      obtain ⟨m, hm, hrun⟩ := (runFrom_cons_ok _ k k' lab labs).1 hrun
      obtain ⟨hr, hsp⟩ := spaced_of_runs hk
      have hg := (hsp.step hr hm).2
      rw [ih (hk.tail hm) hrun, hg.distinct_iff hsp hr.placed.current_lt, and_assoc]
      refine and_congr_right fun _ => ⟨?_, ?_⟩
      · exact fun h space => .cons (h.1 space) hm (h.2 space)
      · exact fun h => ⟨fun space => (h space).1, fun space => (h space).2 m hm⟩

/-- In every run of user threads, the stacks of the threads of each process that have run are
pairwise disjoint exactly when, between the first runs of any two threads of a process, a Fork
of this process reserves a stack. -/
theorem stacks_disjoint_iff (numPages : ℕ) (joinValue : ℕ → ℤ) (initialValue : ℕ → ℤ)
    (labs : List (Label Act)) (k : Kernel Pc Data)
    (h : runFrom (Kernel.step client) (initial numPages joinValue initialValue) labs = .ok k) :
    StacksDisjoint k ↔
      ∀ space, Apart (Kernel.step client) (Begins space) (Reserves space)
        (initial numPages joinValue initialValue) labs := by
  rw [(spaced_of_runs ⟨labs, h⟩).2.disjoint_iff, distinct_iff_meets (.refl _ _) h]
  have hstart : Distinct (initial numPages joinValue initialValue) := by
    intro t _ u _ _ _ v hv
    cases hv
  rw [and_iff_right hstart]
  refine forall_congr' fun space => ?_
  refine meets_flag_down_iff_apart ?_ ?_ ?_ ?_ labs
  · rintro ⟨t, -, -, hv⟩
    cases hv
  · intro k lab k' hk hs hb
    obtain ⟨hr, hsp⟩ := spaced_of_runs hk
    exact (hsp.step hr hs).2.atTop_of_begins hsp hr.placed.current_lt hb
  · intro k lab k' hk hs hres
    obtain ⟨hr, hsp⟩ := spaced_of_runs hk
    exact (hsp.step hr hs).2.not_atTop_of_reserves hsp hres
  · intro k lab k' hk hs hnob hnor
    obtain ⟨hr, hsp⟩ := spaced_of_runs hk
    exact (hsp.step hr hs).2.atTop_iff hsp hnob hnor

end

/-- A Fork that finds its eight pages and makes the thread `child`. -/
def forkThread (child : Tid) : List (Label Act) :=
  Label.act (Act.fork 0) :: List.replicate 4 Label.go ++
    (List.replicate 8
      (Label.act (Act.page true) :: List.replicate 3 Label.go ++ proceed 4)).flatten ++
      proceed 3 ++
      Label.act (Act.thread child) :: List.replicate 3 Label.go ++ proceed 2

/-- The current thread yields, and the next one goes on for `n` steps. -/
def yieldTo (n : ℕ) : List (Label Act) := .act (.other .yield id) :: List.replicate n .go

/-- The first process forks two threads, each of which runs before the next Fork. -/
def forkOneByOne : List (Label Act) :=
  proceed 2 ++ forkThread 1 ++ yieldTo 3 ++ proceed 2 ++ yieldTo 4 ++ forkThread 2 ++ yieldTo 4 ++
    yieldTo 3 ++ proceed 2

theorem stacks_disjoint_oneByOne :
    ∃ labs k, runFrom (Kernel.step client) (initial 10 (fun _ => 0) fun _ => 0) labs = .ok k ∧
      k.numThreads = 3 ∧ k.data.stackReg 0 = some 1264 ∧ k.data.stackReg 1 = some 2288 ∧
        k.data.stackReg 2 = some 3312 ∧
          ∀ space, Apart (Kernel.step client) (Begins space) (Reserves space)
            (initial 10 (fun _ => 0) fun _ => 0) labs := by
  have hpass : passesMeeting (Kernel.step client) (fun _ _ => true)
      (fun k => k.numThreads = 3 ∧ k.data.stackReg 0 = some 1264 ∧ k.data.stackReg 1 = some 2288 ∧
        k.data.stackReg 2 = some 3312) (initial 10 (fun _ => 0) fun _ => 0)
          forkOneByOne = true := by
    decide +kernel
  obtain ⟨-, k, hk, hend⟩ := of_passesMeeting hpass
  obtain ⟨hnum, h0, h1, h2⟩ := of_decide_eq_true hend
  have hreg : ∀ t : ℕ, t < 3 → ∀ v, k.data.stackReg t = some v → v = 1264 + 1024 * t := by
    intro t ht v hv
    obtain rfl | rfl | rfl : t = 0 ∨ t = 1 ∨ t = 2 := by omega
    · exact Option.some.inj (hv.symm.trans h0)
    · exact Option.some.inj (hv.symm.trans h1)
    · exact Option.some.inj (hv.symm.trans h2)
  refine ⟨_, k, hk, hnum, h0, h1, h2, (stacks_disjoint_iff 10 _ _ _ k hk).1 ?_⟩
  intro t ht u hu hne _ v w hv hw
  rw [hreg t (hnum ▸ ht) v hv, hreg u (hnum ▸ hu) w hw, UserStackSize]
  omega

/-- The first process forks two threads, and neither of them runs before the second Fork. -/
def forkBoth : List (Label Act) :=
  proceed 2 ++ forkThread 1 ++ forkThread 2 ++ yieldTo 3 ++ proceed 2 ++ yieldTo 3 ++ proceed 2

/-- The two threads have the same stack. -/
theorem stacks_overlap :
    ∃ k, Reachable (Kernel.step client) (initial 10 (fun _ => 0) fun _ => 0) k ∧
      k.numThreads = 3 ∧ k.data.mySpace 1 = k.data.mySpace 2 ∧ k.data.stackReg 1 = some 3312 ∧
        k.data.stackReg 2 = some 3312 ∧ ¬ StacksDisjoint k := by
  have hpass : passes (Kernel.step client) (initial 10 (fun _ => 0) fun _ => 0) forkBoth
      (fun k => k.numThreads = 3 ∧ k.data.mySpace 1 = k.data.mySpace 2 ∧
        k.data.stackReg 1 = some 3312 ∧ k.data.stackReg 2 = some 3312) = true := by
    decide +kernel
  obtain ⟨k, hk, hend⟩ := exists_of_passes _ hpass
  obtain ⟨hnum, hsp, h1, h2⟩ := of_decide_eq_true hend
  refine ⟨k, hk, hnum, hsp, h1, h2, fun hd => ?_⟩
  have := hd 1 (by omega) 2 (by omega) (by decide) hsp 3312 3312 h1 h2
  rw [UserStackSize] at this
  omega

end UserThreads

end Nachos
