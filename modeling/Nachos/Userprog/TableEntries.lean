import Nachos.Threads.Carcass
import Nachos.Userprog.UserThreads

/-!
# What the process table names

A thread that exits releases the slots of its address space in `TablePtr`, one after the other,
before it calls `Finish`. Its own slot is released in this way if it has been written before
the scan comes to it. `Fork2` enters the new thread before its `Fork`, but `Exec2` enters it
afterwards: a thread that exits in between leaves its name in the table. A name that has been read
can moreover go stale before it is used, since `Get` gives up the lock first.
-/

namespace Nachos

open Lib

namespace UserThreads

open Kernel

/-- The scan of the thread that `object` stands for will not erase it from the slot `i` any more. -/
def Pc.passed (i object : ℕ) : Pc → Bool
  | .exitGet j => i < j
  | .exitTest j temp => i < j ∨ i = j ∧ temp ≠ some object
  | .exitRelease j => i < j
  | .exitNext j => i ≤ j
  | .exited => true
  | _ => false

/-- The object that the thread has read from the table and is to use. -/
def Pc.held : Pc → Option ℕ
  | .exitTest _ temp => temp
  | .joinTest joinThread => joinThread
  | _ => none

/-- The object that the thread has made in `Fork2` and not forked yet. -/
def Pc.made : Pc → Option ℕ
  | .forkAlloc _ object => some object
  | .forkFork _ object => some object
  | _ => none

/-- The object that the thread has made in `Exec2`. -/
def Pc.entered : Pc → Option ℕ
  | .execForked object => some object
  | .execAlloc object => some object
  | _ => none

/-- When `Exec2` enters the new thread, the scan of this thread has not passed the slot, and when
`Scheduler::Run` deletes a thread, nobody is between its `Get` of this thread and the use. -/
def Punctual (k : Kernel Pc Data) (_ : Label Act) : Prop :=
  (k.stack k.currentThread = [] → ∀ child, k.pc k.currentThread = .execAlloc child →
    ∀ i : ℕ, (k.data.tablePtr.alloc child).1 = i → ∀ u, k.data.tid child = some u →
      (k.pc u).passed i child = false) ∧
    ∀ u, k.buries = some u → ∀ t < k.numThreads, (k.pc t).held ≠ some (k.data.self u)

theorem Pc.passed_of_calm {pc : Pc} (h : pc.calm = true) (i object : ℕ) :
    pc.passed i object = false := by
  cases pc <;> first | rfl | cases h

theorem Pc.names_of_calm {pc : Pc} (h : pc.calm = true) :
    pc.made = none ∧ pc.entered = none ∧ pc.held = none := by
  cases pc <;> first | exact ⟨rfl, rfl, rfl⟩ | cases h

/-! ## Turns and the table -/

section

variable {t : Tid} {pc pc' : Pc} {d d' : Data} {view : View} {o : Call Pc}

theorem Turn.numObjects_le (h : Turn t d view pc o pc' d') : d.numObjects ≤ d'.numObjects := by
  cases h <;> simp [Data.setResult, Data.newSpace, Data.newThread, Data.forked, Data.enlarge]

theorem Turn.tableSize (h : Turn t d view pc o pc' d') :
    d'.tablePtr.tableSize = d.tablePtr.tableSize := by
  cases h with
  | execAlloc child => exact d.tablePtr.tableSize_alloc child
  | forkAlloc func object => exact d.tablePtr.tableSize_alloc object
  | exitReleased i => exact d.tablePtr.tableSize_release i
  | _ => rfl

/-- A thread of the kernel gets its object when it is forked. -/
theorem Turn.self (h : Turn t d view pc o pc' d') {u : Tid}
    (hu : ∀ join start, o ≠ .fork u join start) : d'.self u = d.self u := by
  cases h with
  | exec pc child join numPages h =>
      have hne : u ≠ child := by
        rintro rfl
        exact hu _ _ rfl
      simp [Data.forked, Data.newThread, Data.newSpace, hne]
  | forkFork func object child =>
      have hne : u ≠ child := by
        rintro rfl
        exact hu _ _ rfl
      simp [Data.forked, hne]
  | _ => rfl

/-- The objects that exist stand for the same thread, except one that is forked now. -/
theorem Turn.tid_eq (h : Turn t d view pc o pc' d') {object : ℕ} (hlt : object < d.numObjects)
    (hpc : pc.made ≠ some object) : d'.tid object = d.tid object := by
  cases h with
  | exec pc child join numPages h =>
      simp [Data.forked, Data.newThread, Data.newSpace, hlt.ne]
  | forkCommit func newTable i h => simp [Data.newThread, Data.enlarge, hlt.ne]
  | forkFork func made child =>
      have hne : object ≠ made := fun heq => hpc (congrArg some heq.symm)
      simp [Data.forked, hne]
  | _ => rfl

theorem Turn.tid (h : Turn t d view pc o pc' d') (hmade : ∀ object, pc.made = some object →
    object < d.numObjects) {object : ℕ} {u : Tid} (hu : d'.tid object = some u) :
    d.tid object = some u ∨
      (∃ join start, o = .fork u join start) ∧ d'.self u = object ∧ object < d'.numObjects := by
  cases h with
  | exec pc child join numPages h =>
      by_cases hobj : object = d.numObjects
      · subst hobj
        simp only [Data.forked, Function.update_self, Option.some.injEq] at hu
        subst hu
        exact .inr ⟨⟨_, _, rfl⟩, by simp [Data.forked], Nat.lt_succ_self _⟩
      · exact .inl (by simpa [Data.forked, Data.newThread, Data.newSpace, hobj] using hu)
  | forkCommit func newTable i h =>
      by_cases hobj : object = d.numObjects
      · subst hobj
        simp [Data.newThread, Data.enlarge] at hu
      · exact .inl (by simpa [Data.newThread, Data.enlarge, hobj] using hu)
  | forkFork func made child =>
      by_cases hobj : object = made
      · subst hobj
        simp only [Data.forked, Function.update_self, Option.some.injEq] at hu
        subst hu
        exact .inr ⟨⟨_, _, rfl⟩, by simp [Data.forked], hmade object rfl⟩
      · exact .inl (by simpa [Data.forked, hobj] using hu)
  | _ => exact .inl hu

theorem Turn.tid_self (h : Turn t d view pc o pc' d') {u : Tid} {join : ℤ} {start : Pc}
    (ho : o = .fork u join start) : d'.tid (d'.self u) = some u := by
  cases h with
  | exec pc child join' numPages h =>
      cases ho
      simp [Data.forked]
  | forkFork func object child =>
      cases ho
      simp [Data.forked]
  | other pc pc' o h h' hforeign =>
      subst ho
      cases hforeign
  | _ => cases ho

/-- What a slot holds after a turn. -/
theorem Turn.get (h : Turn t d view pc o pc' d') {i object : ℕ}
    (hget : d'.tablePtr.get i = some object) :
    d.tablePtr.get i = some object ∨
      (pc = .execAlloc object ∧ (d.tablePtr.alloc object).1 = i) ∨
        ∃ func, pc = .forkAlloc func object := by
  cases h with
  | execAlloc child =>
      rcases Table.get_alloc_cases hget with hget | ⟨rfl, hi⟩
      · exact .inl hget
      · exact .inr (.inl ⟨rfl, hi⟩)
  | forkAlloc func made =>
      rcases Table.get_alloc hget with hget | rfl
      · exact .inl hget
      · exact .inr (.inr ⟨func, rfl⟩)
  | exitReleased j => exact .inl (Table.get_of_release hget)
  | _ => exact .inl hget

theorem Turn.of_fork (h : Turn t d view pc o pc' d') {u : Tid} {join : ℤ} {start : Pc}
    (ho : o = .fork u join start) : ∃ func, start = .start func := by
  cases h with
  | exec pc child join numPages h =>
      cases ho
      exact ⟨none, rfl⟩
  | forkFork func object child =>
      cases ho
      exact ⟨some func, rfl⟩
  | other pc pc' o h h' hf =>
      subst ho
      cases hf
  | _ => cases ho

theorem Turn.of_finish (h : Turn t d view pc o pc' d') (ho : o = .finish) : pc' = .exited := by
  cases h with
  | finishTest i temp hi h => rfl
  | finishNext i hi => rfl
  | other pc pc' o h h' hf =>
      subst ho
      cases hf
  | _ => cases ho

theorem Turn.ne_exited (h : Turn t d view pc o pc' d') : pc ≠ .exited := by
  rintro rfl
  cases h with
  | other _ _ _ h => cases h
  | ret _ _ h => cases h
  | exec _ _ _ _ h => cases h
  | fork _ _ h => cases h
  | forkFree _ _ _ h => cases h
  | join _ _ h => cases h
  | exit _ _ h => cases h

theorem Turn.of_execAlloc (h : Turn t d view pc o pc' d') {child : ℕ}
    (hpc : pc = .execAlloc child) :
    pc' = .execReturn (d.tablePtr.alloc child).1 := by
  subst hpc
  cases h with
  | execAlloc => rfl
  | other _ _ _ h => cases h
  | ret _ _ h => cases h
  | exec _ _ _ _ h => cases h
  | fork _ _ h => cases h
  | forkFree _ _ _ h => cases h
  | join _ _ h => cases h
  | exit _ _ h => cases h

theorem Turn.made (h : Turn t d view pc o pc' d') {object : ℕ} (hpc : pc'.made = some object) :
    (pc.made = some object ∧ d'.tid = d.tid) ∨
      object = d.numObjects ∧ d'.tid object = none ∧ object < d'.numObjects := by
  cases h with
  | other pc pc' o h h' ho =>
      rw [(Pc.names_of_calm h').1] at hpc
      cases hpc
  | begins func pc' h =>
      rw [(Pc.names_of_calm h).1] at hpc
      cases hpc
  | forkCommit func newTable i h =>
      cases hpc
      exact .inr ⟨rfl, by simp [Data.newThread, Data.enlarge], Nat.lt_succ_self _⟩
  | forkAlloc func made =>
      cases hpc
      exact .inl ⟨rfl, rfl⟩
  | _ => cases hpc

theorem Turn.entered (h : Turn t d view pc o pc' d') {object : ℕ}
    (hpc : pc'.entered = some object) :
    pc.entered = some object ∨ object = d.numObjects ∧ object < d'.numObjects := by
  cases h with
  | other pc pc' o h h' ho =>
      rw [(Pc.names_of_calm h').2.1] at hpc
      cases hpc
  | begins func pc' h =>
      rw [(Pc.names_of_calm h).2.1] at hpc
      cases hpc
  | exec pc child join numPages h =>
      cases hpc
      exact .inr ⟨rfl, Nat.lt_succ_self _⟩
  | execForked child =>
      cases hpc
      exact .inl rfl
  | _ => cases hpc

/-- A thread holds what it has just read. -/
theorem Turn.held (h : Turn t d view pc o pc' d') {object : ℕ} (hpc : pc'.held = some object) :
    ∃ i : ℕ, d.tablePtr.get i = some object ∧ d' = d := by
  cases h with
  | other pc pc' o h h' ho =>
      rw [(Pc.names_of_calm h').2.2] at hpc
      cases hpc
  | begins func pc' h =>
      rw [(Pc.names_of_calm h).2.2] at hpc
      cases hpc
  | joinGet id =>
      obtain ⟨i, hi⟩ := Table.exists_nat_of_get hpc
      exact ⟨i, hi, rfl⟩
  | exitGet i => exact ⟨i, hpc, rfl⟩
  | _ => cases hpc

/-- A thread erases its own object when its scan comes to it. -/
theorem Turn.passed (h : Turn t d view pc o pc' d') {i : ℕ}
    (hsize : d.tablePtr.tableSize = MAXPROCESS) (hlive : d.deleted view (d.self t) = false)
    (hget : d.tablePtr.get i = some (d.self t)) (hget' : d'.tablePtr.get i = some (d.self t))
    (hpc : pc'.passed i (d.self t) = true) : pc.passed i (d.self t) = true := by
  have hlt : i < TABLESIZE := by
    have hle : MAXPROCESS ≤ TABLESIZE := by decide
    by_contra hge
    rw [Table.get_of_tableSize_le _ (hsize.le.trans (hle.trans (not_lt.1 hge)))] at hget
    cases hget
  cases h with
  | other pc pc' o h h' ho =>
      rw [Pc.passed_of_calm h'] at hpc
      cases hpc
  | begins func pc' h =>
      rw [Pc.passed_of_calm h] at hpc
      cases hpc
  | exitGet j =>
      simp only [Pc.passed, decide_eq_true_eq] at hpc ⊢
      rcases hpc with hpc | ⟨rfl, hpc⟩
      · exact hpc
      · exact absurd hget hpc
  | exitRelease j temp =>
      simp only [Pc.passed, decide_eq_true_eq] at hpc ⊢
      exact .inl hpc
  | exitReleased j =>
      simp only [Pc.passed, decide_eq_true_eq] at hpc ⊢
      refine lt_of_le_of_ne hpc ?_
      rintro rfl
      simp [Table.get_release] at hget'
  | exitTest j temp h =>
      simp only [Pc.passed, decide_eq_true_eq] at hpc ⊢
      rcases Nat.lt_succ_iff_lt_or_eq.1 hpc with hpc | hpc
      · exact .inl hpc
      · exact .inr ⟨hpc, fun htemp => h _ htemp hlive rfl⟩
  | exitNext j =>
      simp only [Pc.passed, decide_eq_true_eq] at hpc ⊢
      exact Nat.lt_succ_iff.1 hpc
  | finishTest j temp hi h =>
      simp only [Pc.passed, decide_eq_true_eq]
      rcases Nat.lt_succ_iff_lt_or_eq.1 (hlt.trans_le hi) with hpc | hpc
      · exact .inl hpc
      · exact .inr ⟨hpc, fun htemp => h _ htemp hlive rfl⟩
  | finishNext j hi =>
      simp only [Pc.passed, decide_eq_true_eq]
      exact Nat.lt_succ_iff.1 (hlt.trans_le hi)
  | exit pc status h => simp [Pc.passed] at hpc
  | _ => cases hpc

end

/-! ## Runs -/

/-- What is true of the objects in every run. -/
structure Objects (k : Kernel Pc Data) : Prop where
  named : ∀ object u, k.data.tid object = some u →
    u < k.numThreads ∧ k.data.self u = object ∧ object < k.data.numObjects
  made : ∀ t < k.numThreads, ∀ object, (k.pc t).made = some object →
    object < k.data.numObjects ∧ k.data.tid object = none ∧
      ∀ u < k.numThreads, (k.pc u).made = some object → u = t

/-- What is true of the table and of the objects in every run with `Punctual` steps. -/
structure Listed (k : Kernel Pc Data) : Prop where
  slots : k.data.tablePtr.tableSize = MAXPROCESS
  named : ∀ object u, k.data.tid object = some u →
    u < k.numThreads ∧ k.data.self u = object ∧ object < k.data.numObjects
  entry : ∀ i object : ℕ, k.data.tablePtr.get i = some object → object < k.data.numObjects ∧
    ∀ u, k.data.tid object = some u → (k.pc u).passed i object = false
  made : ∀ t < k.numThreads, ∀ object, (k.pc t).made = some object →
    object < k.data.numObjects ∧ k.data.tid object = none ∧
      ∀ u < k.numThreads, (k.pc u).made = some object → u = t
  entered : ∀ t < k.numThreads, ∀ object, (k.pc t).entered = some object →
    object < k.data.numObjects
  held : ∀ t < k.numThreads, ∀ object, (k.pc t).held = some object →
    object < k.data.numObjects ∧ k.data.deleted k.view object = false
  finished : ∀ t, .finishCalled t ∈ k.log → t < k.numThreads ∧ k.pc t = .exited

variable {k k' : Kernel Pc Data} {lab : Label Act}

theorem Listed.objects (h : Listed k) : Objects k := ⟨h.named, h.made⟩

/-- A thread that has been deleted has exited. -/
theorem Listed.exited {data : Data} {initialValue : ℕ → ℤ} (h : Listed k)
    (hr : Runs client (.start (some 0)) data initialValue k) {u : Tid} (hdel : k.deleted u = true) :
    k.pc u = .exited :=
  (h.finished u (hr.finishCalled (hr.buried u (.inr hdel)))).2

theorem Objects.of_quiet (h : Objects k) (hq : Quiet k k') : Objects k' := by
  refine ⟨?_, ?_⟩
  · rw [hq.data, hq.numThreads]
    exact h.named
  · rw [hq.data, hq.pc, hq.numThreads]
    exact h.made

/-- A part of a kernel routine. -/
theorem Listed.of_quiet (h : Listed k) (htime : Punctual k lab)
    (hinner : ∀ t o, .call o ∈ k.stack t → o.isInner = true) (hs : step client k lab = .ok k')
    (hne : k.stack k.currentThread ≠ []) (hq : Quiet k k') : Listed k' := by
  have hobj := h.objects.of_quiet hq
  refine ⟨?_, hobj.named, ?_, hobj.made, ?_, ?_, ?_⟩
  · rw [hq.data]
    exact h.slots
  · rw [hq.data, hq.pc]
    exact h.entry
  · rw [hq.data, hq.pc, hq.numThreads]
    exact h.entered
  · rw [hq.data, hq.pc, hq.numThreads]
    intro t ht object hobj
    obtain ⟨hlt, hlive⟩ := h.held t ht object hobj
    refine ⟨hlt, ?_⟩
    simp only [Data.deleted] at hlive ⊢
    cases htid : k.data.tid object with
    | none => rfl
    | some u =>
        simp only [htid] at hlive ⊢
        by_contra hdel
        rcases deleted_of_step hs (by simpa [view] using hdel) with hdel | hbur
        · have hlive' : k.deleted u = false := hlive
          rw [hlive'] at hdel
          cases hdel
        · exact htime.2 u hbur t ht ((h.named object u htid).2.1.symm ▸ hobj)
  · intro t hmem
    rw [hq.pc, hq.numThreads]
    exact h.finished t (mem_log_of_frame hinner hs hne (.inr ⟨t, rfl⟩) hmem)

section

variable {d₀ : Data} {initialValue : ℕ → ℤ} {o : Call Pc} {pc : Pc}

/-- A new thread stands at its start. -/
theorem Turn.born (hturn : Turn k.currentThread k.data k.view (k.pc k.currentThread) o pc k'.data)
    (hadv : Advances k k' o pc) {u : Tid} {join : ℤ} {start : Pc} (ho : o = .fork u join start) :
    u = k.numThreads ∧ ∃ func, k'.pc u = .start func := by
  obtain ⟨hu, hnum⟩ := hadv.forked u join start ho
  obtain ⟨-, join', start', ho', hpc⟩ := hadv.born u hu.ge
    (by rw [hu, hnum]; exact Nat.lt_succ_self _)
  obtain ⟨func, rfl⟩ := hturn.of_fork ho'
  exact ⟨hu, func, hpc⟩

/-- Where a thread is after a turn; a new thread is at its start. -/
theorem Turn.pc_cases
    (hturn : Turn k.currentThread k.data k.view (k.pc k.currentThread) o pc k'.data)
    (hadv : Advances k k' o pc) {u : Tid} (hu : u < k'.numThreads) :
    (u = k.currentThread ∧ k'.pc u = pc) ∨
      (u ≠ k.currentThread ∧ u < k.numThreads ∧ k'.pc u = k.pc u) ∨
        ∃ func, k'.pc u = .start func := by
  rcases hadv.pc_cases hu with hu | hu | ⟨-, join, start, rfl, -⟩
  · exact .inl hu
  · exact .inr (.inl hu)
  · exact .inr (.inr (hturn.born hadv rfl).2)

theorem Objects.named_of_turn (h : Objects k) (hadv : Advances k k' o pc)
    (hturn : Turn k.currentThread k.data k.view (k.pc k.currentThread) o pc k'.data)
    (hcur : k.currentThread < k.numThreads) {object : ℕ} {u : Tid}
    (hu : k'.data.tid object = some u) :
    (k.data.tid object = some u ∧ u < k.numThreads ∧ k'.data.self u = object ∧
      object < k'.data.numObjects) ∨
      (u = k.numThreads ∧ u < k'.numThreads ∧ ∃ func, k'.pc u = .start func) ∧
        k'.data.self u = object ∧ object < k'.data.numObjects := by
  have hmade := fun object hobj => (h.made _ hcur object hobj).1
  rcases hturn.tid hmade hu with hold | ⟨⟨join, start, ho⟩, hself, hlt⟩
  · obtain ⟨hlt, hself, hobj⟩ := h.named object u hold
    refine .inl ⟨hold, hlt, ?_, hobj.trans_le hturn.numObjects_le⟩
    rw [hturn.self, hself]
    intro join start ho
    exact absurd (hadv.forked u join start ho).1 hlt.ne
  · obtain ⟨hu, hstart⟩ := hturn.born hadv ho
    have hnum := (hadv.forked u join start ho).2
    exact .inr ⟨⟨hu, by rw [hu, hnum]; exact Nat.lt_succ_self _, hstart⟩, hself, hlt⟩

theorem Objects.made_of_turn (h : Objects k) (hadv : Advances k k' o pc)
    (hturn : Turn k.currentThread k.data k.view (k.pc k.currentThread) o pc k'.data)
    (hcur : k.currentThread < k.numThreads) {t : Tid} (ht : t < k'.numThreads) {object : ℕ}
    (hobj : (k'.pc t).made = some object) :
    object < k'.data.numObjects ∧ k'.data.tid object = none ∧
      ∀ u < k'.numThreads, (k'.pc u).made = some object → u = t := by
  have hnum := hturn.numObjects_le
  have hnew : ∀ u < k.numThreads, (k.pc u).made ≠ some k.data.numObjects := fun u hu hmade =>
    absurd (h.made u hu _ hmade).1 (lt_irrefl _)
  rcases hturn.pc_cases hadv ht with ⟨rfl, hpc⟩ | ⟨htc, hlt, hpc⟩ | ⟨func, hpc⟩
  · rw [hpc] at hobj
    rcases hturn.made hobj with ⟨hold, htid⟩ | ⟨rfl, htid, hlt⟩
    · obtain ⟨hlt, hnone, huniq⟩ := h.made _ hcur object hold
      refine ⟨hlt.trans_le hnum, by rw [htid, hnone], fun u hu hmade => ?_⟩
      rcases hturn.pc_cases hadv hu with ⟨rfl, -⟩ | ⟨-, hlt, hpc⟩ | ⟨func, hpc⟩
      · rfl
      · exact huniq u hlt (hpc ▸ hmade)
      · rw [hpc] at hmade
        cases hmade
    · refine ⟨hlt, htid, fun u hu hmade => ?_⟩
      rcases hturn.pc_cases hadv hu with ⟨rfl, -⟩ | ⟨-, hlt, hpc⟩ | ⟨func, hpc⟩
      · rfl
      · exact absurd (hpc ▸ hmade) (hnew u hlt)
      · rw [hpc] at hmade
        cases hmade
  · rw [hpc] at hobj
    obtain ⟨hlt', hnone, huniq⟩ := h.made t hlt object hobj
    have hcurmade : (k.pc k.currentThread).made ≠ some object := fun hmade =>
      htc (huniq _ hcur hmade).symm
    refine ⟨hlt'.trans_le hnum, by rw [hturn.tid_eq hlt' hcurmade, hnone], fun u hu hmade => ?_⟩
    rcases hturn.pc_cases hadv hu with ⟨rfl, hpc⟩ | ⟨-, hlt, hpc⟩ | ⟨func, hpc⟩
    · rw [hpc] at hmade
      rcases hturn.made hmade with ⟨hold, -⟩ | ⟨rfl, -⟩
      · exact absurd hold hcurmade
      · exact absurd hlt' (lt_irrefl _)
    · exact huniq u hlt (hpc ▸ hmade)
    · rw [hpc] at hmade
      cases hmade
  · rw [hpc] at hobj
    cases hobj

theorem Objects.of_turn (h : Objects k) (hadv : Advances k k' o pc)
    (hturn : Turn k.currentThread k.data k.view (k.pc k.currentThread) o pc k'.data)
    (hcur : k.currentThread < k.numThreads) : Objects k' := by
  refine ⟨?_, fun t ht object => h.made_of_turn hadv hturn hcur ht⟩
  intro object u hu
  rcases h.named_of_turn hadv hturn hcur hu with ⟨-, hlt, hself⟩ | ⟨⟨-, hlt, -⟩, hself⟩
  · exact ⟨hlt.trans_le hadv.numThreads, hself⟩
  · exact ⟨hlt, hself⟩

end

theorem Objects.init (numPages : ℕ) (joinValue : ℕ → ℤ) (initialValue : ℕ → ℤ) :
    Objects (initial numPages joinValue initialValue) := by
  refine ⟨?_, ?_⟩
  · intro object u hu
    by_cases hobj : object = 0
    · subst hobj
      obtain rfl : u = 0 := (Option.some.inj hu).symm
      exact ⟨Nat.one_pos, rfl, Nat.one_pos⟩
    · simp [initial, Kernel.init, start, hobj] at hu
  · intro t _ object hobj
    cases hobj

theorem objects_of_runs {numPages : ℕ} {joinValue : ℕ → ℤ} {initialValue : ℕ → ℤ}
    (hr : Runs client (.start (some 0)) (start numPages joinValue) initialValue k) : Objects k := by
  refine Reachable.invariant (I := Objects) (.init numPages joinValue initialValue) ?_ hr
  intro k lab k' hr h hs
  have hr : Runs client (.start (some 0)) (start numPages joinValue) initialValue k := hr
  rcases step_turn hr.placed.current_lt hr.inner hs with
    ⟨a, o, pc, -, -, hturn, -, hadv⟩ | ⟨-, hq⟩
  · exact h.of_turn hadv hturn hr.placed.current_lt
  · exact h.of_quiet hq

section

variable {d₀ : Data} {initialValue : ℕ → ℤ} {o : Call Pc} {pc : Pc}

theorem not_deleted_new (hr : Runs client (.start (some 0)) d₀ initialValue k) :
    k.deleted k.numThreads = false := by
  by_contra hdel
  obtain ⟨hb, -⟩ := (hr.placed.finished _).2 (hr.buried _ (.inr (by simpa using hdel)))
  rw [(hr.placed.created _).2 le_rfl] at hb
  cases hb

theorem Listed.not_deleted_current (h : Listed k)
    (hr : Runs client (.start (some 0)) d₀ initialValue k)
    (hturn : Turn k.currentThread k.data k.view (k.pc k.currentThread) o pc k'.data) :
    k.deleted k.currentThread = false := by
  by_contra hdel
  exact hturn.ne_exited (h.exited hr (by simpa using hdel))

theorem Listed.entry_of_turn (h : Listed k) (hr : Runs client (.start (some 0)) d₀ initialValue k)
    (htime : Punctual k lab) (hst : k.stack k.currentThread = []) (hadv : Advances k k' o pc)
    (hturn : Turn k.currentThread k.data k.view (k.pc k.currentThread) o pc k'.data)
    {i object : ℕ} (hget : k'.data.tablePtr.get i = some object) :
    object < k'.data.numObjects ∧
      ∀ u, k'.data.tid object = some u → (k'.pc u).passed i object = false := by
  have hcur := hr.placed.current_lt
  have hnum := hturn.numObjects_le
  rcases hturn.get hget with hold | ⟨hpc, hi⟩ | ⟨func, hpc⟩
  · obtain ⟨hlt, hnot⟩ := h.entry i object hold
    refine ⟨hlt.trans_le hnum, fun u hu => ?_⟩
    rcases h.objects.named_of_turn hadv hturn hcur hu with
      ⟨htid, hlt, -⟩ | ⟨⟨-, -, func, hstart⟩, -⟩
    · by_cases huc : u = k.currentThread
      · subst huc
        obtain ⟨-, rfl, -⟩ := h.named object _ htid
        rw [hadv.self]
        by_contra hpass
        have hlive := h.not_deleted_current hr hturn
        have := hturn.passed h.slots (by simpa [Data.deleted, htid, view] using hlive) hold hget
          (by simpa using hpass)
        rw [hnot _ htid] at this
        cases this
      · rw [hadv.others u huc hlt]
        exact hnot u htid
    · rw [hstart]
      rfl
  · refine ⟨(h.entered _ hcur object (by rw [hpc]; rfl)).trans_le hnum, fun u hu => ?_⟩
    -- the slot is written by Exec, in time
    have htid : k.data.tid object = some u := by
      rwa [← hturn.tid_eq (h.entered _ hcur object (by rw [hpc]; rfl)) (by simp [hpc, Pc.made])]
    have hnot := htime.1 hst object hpc i hi u htid
    by_cases huc : u = k.currentThread
    · subst huc
      rw [hadv.self, hturn.of_execAlloc hpc]
      rfl
    · rw [hadv.others u huc (h.named object u htid).1]
      exact hnot
  · obtain ⟨hlt, hnone, -⟩ := h.made _ hcur object (by rw [hpc]; rfl)
    refine ⟨hlt.trans_le hnum, fun u hu => ?_⟩
    rcases h.objects.named_of_turn hadv hturn hcur hu with ⟨htid, -⟩ | ⟨⟨-, -, func, hstart⟩, -⟩
    · rw [hnone] at htid
      cases htid
    · rw [hstart]
      rfl

theorem Listed.entered_of_turn (h : Listed k) (hadv : Advances k k' o pc)
    (hturn : Turn k.currentThread k.data k.view (k.pc k.currentThread) o pc k'.data)
    (hcur : k.currentThread < k.numThreads) {t : Tid} (ht : t < k'.numThreads) {object : ℕ}
    (hobj : (k'.pc t).entered = some object) : object < k'.data.numObjects := by
  rcases hturn.pc_cases hadv ht with ⟨rfl, hpc⟩ | ⟨-, hlt, hpc⟩ | ⟨func, hpc⟩
  · rw [hpc] at hobj
    rcases hturn.entered hobj with hold | ⟨-, hlt⟩
    · exact (h.entered _ hcur object hold).trans_le hturn.numObjects_le
    · exact hlt
  · rw [hpc] at hobj
    exact (h.entered t hlt object hobj).trans_le hturn.numObjects_le
  · rw [hpc] at hobj
    cases hobj

theorem Listed.held_of_turn (h : Listed k) (hr : Runs client (.start (some 0)) d₀ initialValue k)
    (hdel : ∀ u, k'.deleted u = true → k.deleted u = true) (hadv : Advances k k' o pc)
    (hturn : Turn k.currentThread k.data k.view (k.pc k.currentThread) o pc k'.data)
    {t : Tid} (ht : t < k'.numThreads) {object : ℕ} (hobj : (k'.pc t).held = some object) :
    object < k'.data.numObjects ∧ k'.data.deleted k'.view object = false := by
  have hcur := hr.placed.current_lt
  have hlive : (∀ u, k.data.tid object = some u → k.deleted u = false) →
      k'.data.deleted k'.view object = false := by
    intro hold
    unfold Data.deleted
    split
    · rename_i u hu
      by_contra hdel'
      have hdel' := hdel u (by simpa [view] using hdel')
      rcases h.objects.named_of_turn hadv hturn hcur hu with ⟨htid, -⟩ | ⟨⟨rfl, -⟩, -⟩
      · rw [hold u htid] at hdel'
        cases hdel'
      · rw [not_deleted_new hr] at hdel'
        cases hdel'
    · rfl
  rcases hturn.pc_cases hadv ht with ⟨rfl, hpc⟩ | ⟨-, hlt, hpc⟩ | ⟨func, hpc⟩
  · rw [hpc] at hobj
    obtain ⟨i, hget, -⟩ := hturn.held hobj
    obtain ⟨hlt, hnot⟩ := h.entry i object hget
    refine ⟨hlt.trans_le hturn.numObjects_le, hlive fun u hu => ?_⟩
    by_contra hdel'
    have hpass := hnot u hu
    rw [h.exited hr (by simpa using hdel')] at hpass
    cases hpass
  · rw [hpc] at hobj
    obtain ⟨hlt', hnot⟩ := h.held t hlt object hobj
    refine ⟨hlt'.trans_le hturn.numObjects_le, hlive fun u hu => ?_⟩
    simpa [Data.deleted, hu, view] using hnot
  · rw [hpc] at hobj
    cases hobj

theorem Listed.of_turn (h : Listed k) (hr : Runs client (.start (some 0)) d₀ initialValue k)
    (htime : Punctual k lab) (hs : step client k lab = .ok k')
    (hst : k.stack k.currentThread = []) (he : (k.advance pc k'.data).exec o = .ok k')
    (hadv : Advances k k' o pc)
    (hturn : Turn k.currentThread k.data k.view (k.pc k.currentThread) o pc k'.data) :
    Listed k' := by
  have hcur := hr.placed.current_lt
  have hdel : ∀ u, k'.deleted u = true → k.deleted u = true := by
    intro u hu
    refine (deleted_of_step hs hu).resolve_right ?_
    simp [buries, continues, hst]
  have hobj := h.objects.of_turn hadv hturn hcur
  refine ⟨hturn.tableSize.trans h.slots, hobj.named, fun i object =>
    h.entry_of_turn hr htime hst hadv hturn,
    hobj.made,
    fun t ht object => h.entered_of_turn hadv hturn hcur ht,
    fun t ht object => h.held_of_turn hr hdel hadv hturn ht, ?_⟩
  · intro t hmem
    have hm := (unmarked_mark k (k.advance pc k'.data) rfl rfl rfl rfl rfl (.call o)).trans
      (unmarked_exec he)
    rw [hm.mem_log rfl, mem_mark_log] at hmem
    rcases hmem with hmem | hmem
    · cases o with
      | finish =>
          obtain rfl : t = k.currentThread := by simpa [Frame.deeds] using hmem
          exact ⟨hcur.trans_le hadv.numThreads, by rw [hadv.self, hturn.of_finish rfl]⟩
      | _ => simp [Frame.deeds] at hmem
    · obtain ⟨hlt, hexit⟩ := h.finished t hmem
      have htc : t ≠ k.currentThread := by
        rintro rfl
        exact hturn.ne_exited hexit
      exact ⟨hlt.trans_le hadv.numThreads, by rw [hadv.others t htc hlt, hexit]⟩

end

theorem Listed.init (numPages : ℕ) (joinValue : ℕ → ℤ) (initialValue : ℕ → ℤ) :
    Listed (initial numPages joinValue initialValue) := by
  have hobj := Objects.init numPages joinValue initialValue
  refine ⟨?_, hobj.named, ?_, hobj.made, ?_, ?_, ?_⟩
  · exact (Table.tableSize_alloc _ _).trans (Table.tableSize_new _)
  · intro i object hget
    refine ⟨?_, fun u _ => rfl⟩
    rcases Table.get_alloc hget with hget | rfl
    · simp at hget
    · exact Nat.one_pos
  · intro t _ object hobj
    cases hobj
  · intro t _ object hobj
    cases hobj
  · simp [initial, Kernel.init]

theorem Listed.step {d₀ : Data} {initialValue : ℕ → ℤ} (h : Listed k)
    (hr : Runs client (.start (some 0)) d₀ initialValue k) (htime : Punctual k lab)
    (hs : Kernel.step client k lab = .ok k') : Listed k' := by
  rcases step_turn hr.placed.current_lt hr.inner hs with
    ⟨a, o, pc, -, hst, hturn, he, hadv⟩ | ⟨hne, hq⟩
  · exact h.of_turn hr htime hs hst he hadv hturn
  · exact h.of_quiet htime hr.inner hs hne hq

/-- In every run of Exec, Fork, Exit and Join in which `Exec2` enters a new thread before the scan
of this thread has passed the slot, and no thread is deleted between a `Get` of it and the use:
every entry of `TablePtr` is a `Thread` that has not been deleted, and so is every `Thread` that the
scan of `SysCallExit` or the lookup of `Join2` is about to use. -/
theorem table_names_living (numPages : ℕ) (joinValue : ℕ → ℤ) (initialValue : ℕ → ℤ)
    (labs : List (Label Act)) (k : Kernel Pc Data)
    (hmeets : Meets (Kernel.step client) Punctual
      (initial numPages joinValue initialValue) labs)
    (hk : runFrom (Kernel.step client) (initial numPages joinValue initialValue)
      labs = .ok k) :
    (∀ (i : ℤ) object, k.data.tablePtr.get i = some object →
      k.data.deleted k.view object = false) ∧
      ∀ t < k.numThreads, ∀ object, (k.pc t).held = some object →
        k.data.deleted k.view object = false := by
  obtain ⟨hr, hl⟩ := invariant_of_meets
    (I := fun k => Runs client (.start (some 0)) (start numPages joinValue)
      initialValue k ∧ Listed k)
    (fun k lab k' hi htime hs => ⟨hi.1.tail hs, hi.2.step hi.1 htime hs⟩)
    ⟨.refl _ _, .init numPages joinValue initialValue⟩ hmeets hk
  refine ⟨?_, fun t ht object hobj => (hl.held t ht object hobj).2⟩
  intro i object hget
  obtain ⟨n, hget⟩ := Table.exists_nat_of_get hget
  obtain ⟨-, hnot⟩ := hl.entry n object hget
  unfold Data.deleted
  split
  · rename_i u hu
    by_contra hdel
    have hpass := hnot u hu
    rw [hl.exited hr (by simpa [view] using hdel)] at hpass
    cases hpass
  · rfl

/-- A thread goes on in its system call. -/
def proceed (n : ℕ) : List (Label Act) := turns [(.goOn 0, n)]

/-- The thread runs for the first time and calls Exit, up to its call of `Finish`. -/
def startThenExit : List (Label Act) :=
  List.replicate 3 .go ++ proceed 2 ++ .act (.exit 0) :: List.replicate 4 .go

/-- The scan of `SysCallExit` over `n` slots that are not to be released. -/
def scan (n : ℕ) : List (Label Act) := (List.replicate n (proceed 3 ++ proceed 4)).flatten

/-- The first process starts another one and yields; the other one exits and is deleted. -/
def execThenExit : List (Label Act) :=
  proceed 2 ++ .act (.exec 1 0 10) :: List.replicate 3 .go ++ proceed 4 ++ proceed 3 ++ proceed 2 ++
    .act (.other .yield id) :: startThenExit ++ scan 1 ++ proceed 3 ++ proceed 4 ++ proceed 3 ++
      proceed 4 ++ scan 47 ++ proceed 3 ++ proceed 13

/-- The condition `Punctual` as a test. -/
def punctualTest (k : Kernel Pc Data) (_ : Label Act) : Bool :=
  (match k.stack k.currentThread, k.pc k.currentThread with
    | [], .execAlloc child =>
        match k.data.tid child with
        | some u => (k.pc u).passed (k.data.tablePtr.alloc child).1.toNat child = false
        | none => true
    | _, _ => true) &&
    match k.buries with
    | some u => (List.range k.numThreads).all fun t => (k.pc t).held ≠ some (k.data.self u)
    | none => true

theorem punctual_of_test (h : punctualTest k lab = true) : Punctual k lab := by
  simp only [punctualTest, Bool.and_eq_true] at h
  refine ⟨?_, ?_⟩
  · intro hst child hpc i hi u hu
    have h := h.1
    simp only [hst, hpc, hu, hi, decide_eq_true_eq] at h
    exact h
  · intro u hbur t ht
    have h := h.2
    simp only [hbur, List.all_eq_true, List.mem_range, decide_eq_true_eq] at h
    exact h t ht

theorem table_names_living_exit :
    ∃ labs k, Meets (Kernel.step client) Punctual
        (initial 10 (fun _ => 0) fun _ => 0) labs ∧
      runFrom (Kernel.step client) (initial 10 (fun _ => 0) fun _ => 0) labs = .ok k ∧
        k.deleted 1 = true ∧ k.data.tablePtr.get 0 = some 0 ∧
          ∀ (i : ℤ) object, k.data.tablePtr.get i = some object →
            k.data.deleted k.view object = false := by
  have hpass : passesMeeting (Kernel.step client) punctualTest
      (fun k => k.deleted 1 = true ∧ k.data.tablePtr.get 0 = some 0)
      (initial 10 (fun _ => 0) fun _ => 0) execThenExit = true := by
    decide +kernel
  obtain ⟨hmeets, k, hrun, hend⟩ := of_passesMeeting hpass
  replace hmeets := hmeets.imp (Q := Punctual) fun _ _ => punctual_of_test
  obtain ⟨hdel, hget⟩ := of_decide_eq_true hend
  exact ⟨_, k, hmeets, hrun, hdel, hget, (table_names_living 10 _ _ _ k hmeets hrun).1⟩

/-- The time slice of the first process ends after the `Fork` of its Exec, and the other one
exits and is deleted before its entry is written. -/
def exitThenEnter : List (Label Act) :=
  proceed 2 ++ [Label.act (Act.exec 1 0 10), .go, .go, .timer, .go] ++ startThenExit ++ scan 49 ++
    proceed 3 ++
    proceed 13 ++ proceed 4 ++ proceed 0

/-- The table names a thread that has been deleted. -/
theorem table_names_deleted :
    ∃ k, Reachable (Kernel.step client) (initial 10 (fun _ => 0) fun _ => 0) k ∧
      k.data.tablePtr.get 1 = some 1 ∧ k.data.deleted k.view 1 = true := by
  have hpass : passes (Kernel.step client) (initial 10 (fun _ => 0) fun _ => 0)
      exitThenEnter
      (fun k => k.data.tablePtr.get 1 = some 1 ∧ k.data.deleted k.view 1 = true) = true := by
    decide +kernel
  obtain ⟨k, hk, hend⟩ := exists_of_passes _ hpass
  exact ⟨k, hk, of_decide_eq_true hend⟩

end UserThreads

end Nachos
