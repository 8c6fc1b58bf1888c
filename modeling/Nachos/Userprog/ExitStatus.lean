import Nachos.Threads.Join
import Nachos.Userprog.Processes

/-!
# The exit status

What `Join2` returns to a process. `Turn` lists what the own code of a process can do up to
its next call, and the invariants of the section on processes hold in every run. The exit
status is lost when the slot of the process in `TablePtr` has been released or given away
before `Join2` looks it up, and it is read too late when the time slice of the
process ends inside the last `Release` of `Join`.
-/

namespace Nachos

open Lib

namespace Processes

open Kernel

/-- The own code of the process `t` up to its next call. -/
inductive Turn (t : Tid) (d : Data) (view : View) : Pc → Call Pc → Pc → Data → Prop
  | exec (child : Tid) (join : ℤ) : Turn t d view .run (.fork child join .run)
      (.execForked child join) d
  | join (id : ℤ) :
      Turn t d view .run (.acquire tableLock) (.joinGet id) (d.note (.joinCalled t id))
  | exit (status : ℤ) : Turn t d view .run (.acquire tableLock) (.exitGet 0)
      ({ d with joinValue := Function.update d.joinValue t status }.note (.exitCalled t status))
  | other (o : Call Pc) (h : foreign o = true) : Turn t d view .run o .run d
  | execForked (child : Tid) (join : ℤ) :
      Turn t d view (.execForked child join) (.acquire tableLock) (.execAlloc child join) d
  | execAlloc (child : Tid) (join : ℤ) :
      Turn t d view (.execAlloc child join) (.release tableLock)
        (.execReturn child join (d.tablePtr.alloc child).1)
        { d with tablePtr := (d.tablePtr.alloc child).2 }
  | execReturn (child : Tid) (join processID : ℤ) :
      Turn t d view (.execReturn child join processID) .oneTick .run
        (d.note (.execReturned t child (processID + 1) join))
  | joinGet (id : ℤ) : Turn t d view (.joinGet id) (.release tableLock)
      (.joinTest id (d.tablePtr.get (id - 1))) d
  | joinNone (id : ℤ) :
      Turn t d view (.joinTest id none) .oneTick .run (d.note (.joinReturned t id (-65535)))
  | joinRefused (id : ℤ) (s : Tid) (h : view.deleted s = true ∨ view.join s = 0) :
      Turn t d view (.joinTest id (some s)) .oneTick .run (d.note (.joinReturned t id (-65535)))
  | joinCall (id : ℤ) (s : Tid) :
      Turn t d view (.joinTest id (some s)) (.join s) (.joinRead id s) d
  | joinRead (id : ℤ) (s : Tid) (value : ℤ)
      (h : view.deleted s = false → value = d.joinValue s) :
      Turn t d view (.joinRead id s) .oneTick .run (d.note (.joinReturned t id value))
  | exitGet (i : ℕ) : Turn t d view (.exitGet i) (.release tableLock)
      (.exitTest i (d.tablePtr.get i)) d
  | exitRelease (i : ℕ) (s : Tid) :
      Turn t d view (.exitTest i (some s)) (.acquire tableLock) (.exitRelease i) d
  | exitReleased (i : ℕ) : Turn t d view (.exitRelease i) (.release tableLock) (.exitNext i)
      { d with tablePtr := d.tablePtr.release i }
  | exitTest (i : ℕ) (temp : Option Tid) :
      Turn t d view (.exitTest i temp) (.acquire tableLock) (.exitGet (i + 1)) d
  | exitNext (i : ℕ) : Turn t d view (.exitNext i) (.acquire tableLock) (.exitGet (i + 1)) d
  | finishTest (i : ℕ) (temp : Option Tid) : Turn t d view (.exitTest i temp) .finish .exited d
  | finishNext (i : ℕ) : Turn t d view (.exitNext i) .finish .exited d

section

variable {t : Tid} {pc pc' : Pc} {d d' : Data} {view : View} {a : Act} {freed : ℤ} {o : Call Pc}

theorem exitLoop_cases {i : ℕ} (h : exitLoop d i = (o, pc', d')) :
    (o, pc', d') = (.acquire tableLock, .exitGet i, d) ∨ (o, pc', d') = (.finish, .exited, d) := by
  unfold exitLoop at h
  split at h
  · exact .inl h.symm
  · exact .inr h.symm

theorem turn_of_user (h : user t d a = some (o, pc', d')) : Turn t d view .run o pc' d' := by
  cases a with
  | exec child willJoin =>
      cases h
      exact .exec child _
  | join id =>
      cases h
      exact .join id
  | exit status =>
      cases h
      exact .exit status
  | other o =>
      simp only [user] at h
      split at h
      · cases h
        exact .other _ ‹_›
      · cases h
  | goOn freed => cases h
  | handle sems => cases h

theorem turn_of_goOn (h : goOn t d view freed pc = some (o, pc', d')) :
    Turn t d view pc o pc' d' := by
  cases pc with
  | run => cases h
  | execForked child join =>
      cases h
      exact .execForked child join
  | execAlloc child join =>
      cases h
      exact .execAlloc child join
  | execReturn child join processID =>
      cases h
      exact .execReturn child join processID
  | joinGet id =>
      cases h
      exact .joinGet id
  | joinTest id s =>
      cases s with
      | none =>
          cases h
          exact .joinNone id
      | some s =>
          simp only [goOn] at h
          by_cases hcan : (if view.deleted s = true then freed else view.join s) = 0
          · rw [if_pos hcan] at h
            cases h
            refine .joinRefused id s ?_
            split at hcan
            · exact .inl ‹_›
            · exact .inr hcan
          · rw [if_neg hcan] at h
            cases h
            exact .joinCall id s
  | joinRead id s =>
      cases h
      refine .joinRead id s _ ?_
      intro hdel
      simp [hdel]
  | exitGet i =>
      cases h
      exact .exitGet i
  | exitTest i temp =>
      cases temp with
      | none =>
          rcases exitLoop_cases (Option.some.inj h) with heq | heq
          · cases heq
            exact .exitTest i none
          · cases heq
            exact .finishTest i none
      | some s =>
          simp only [goOn] at h
          by_cases hown : (if view.deleted s = true then freed ≠ 0 else s = t)
          · rw [if_pos hown] at h
            cases h
            exact .exitRelease i s
          · rw [if_neg hown] at h
            rcases exitLoop_cases (Option.some.inj h) with heq | heq
            · cases heq
              exact .exitTest i (some s)
            · cases heq
              exact .finishTest i (some s)
  | exitRelease i =>
      cases h
      exact .exitReleased i
  | exitNext i =>
      rcases exitLoop_cases (Option.some.inj h) with heq | heq
      · cases heq
        exact .exitNext i
      · cases heq
        exact .finishNext i
  | exited => cases h

theorem turn_of_next (h : next t pc d view a = some (o, pc', d')) : Turn t d view pc o pc' d' := by
  unfold next at h
  split at h
  · exact turn_of_goOn h
  · exact turn_of_user h
  · cases h

end

theorem Turn.of_fork {t : Tid} {pc pc' : Pc} {d d' : Data} {view : View} {c : Tid} {j : ℤ}
    {start : Pc} (h : Turn t d view pc (.fork c j start) pc' d') :
    pc = .run ∧ start = .run ∧ pc' = .execForked c j := by
  cases h with
  | exec child join => exact ⟨rfl, rfl, rfl⟩
  | other o h => cases h

theorem Turn.of_join {t : Tid} {pc pc' : Pc} {d d' : Data} {view : View} {s : Tid}
    (h : Turn t d view pc (.join s) pc' d') :
    ∃ i, pc = .joinTest i (some s) ∧ pc' = .joinRead i s := by
  cases h with
  | joinCall id s => exact ⟨id, rfl, rfl⟩
  | other o h => cases h

theorem Turn.of_finish {t : Tid} {pc pc' : Pc} {d d' : Data} {view : View}
    (h : Turn t d view pc .finish pc' d') : pc' = .exited := by
  cases h with
  | finishTest i temp => rfl
  | finishNext i => rfl
  | other o h => cases h

/-! ## Runs of processes -/

/-- The process has called Exit. -/
def Pc.exits : Pc → Bool
  | .exitGet _ => true
  | .exitTest _ _ => true
  | .exitRelease _ => true
  | .exitNext _ => true
  | .exited => true
  | _ => false

/-- The process that an Exec has started and has not returned yet. -/
def Pc.child : Pc → Option (Tid × ℤ)
  | .execForked child join => some (child, join)
  | .execAlloc child join => some (child, join)
  | .execReturn child join _ => some (child, join)
  | _ => none

/-- What is true of the processes in every state. -/
structure Orderly (k : Kernel Pc Data) : Prop where
  fresh : ∀ u, k.numThreads ≤ u → k.pc u = .run
  finished : ∀ t, .finishCalled t ∈ k.log → k.pc t = .exited
  exits : ∀ t, (k.pc t).exits = true → .exitCalled t (k.data.joinValue t) ∈ k.data.history
  child : ∀ u c j, (k.pc u).child = some (c, j) → c < k.numThreads ∧ k.join c = j
  returned : ∀ p c id j, .execReturned p c id j ∈ k.data.history → c < k.numThreads ∧ k.join c = j
  table : ∀ (i : ℤ) t, k.data.tablePtr.get i = some t → t < k.numThreads
  tested : ∀ u i t, k.pc u = .joinTest i (some t) → t < k.numThreads
  reading : ∀ u i t, k.pc u = .joinRead i t →
    .joinCalled u t ∈ k.log ∧ u ≠ t ∧ t < k.numThreads ∧ k.join t ≠ 0
  joining : ∀ u t, .joinCalled u t ∈ k.log → u ≠ t

variable {k k' : Kernel Pc Data} {lab : Label Act}

/-- A step of the processes: a turn of the current process up to its next call, or a part
of a kernel routine. -/
theorem step_turn (hfresh : ∀ u, k.numThreads ≤ u → k.pc u = .run) (hp : k.Placed)
    (hinner : ∀ t o, .call o ∈ k.stack t → o.isInner = true) (hs : step client k lab = .ok k') :
    (∃ a o pc, lab = .act a ∧ k.stack k.currentThread = [] ∧
      Turn k.currentThread k.data k.view (k.pc k.currentThread) o pc k'.data ∧
        o.isPublic = true ∧ (k.advance pc k'.data).exec o = .ok k' ∧
          k'.pc = Function.update k.pc k.currentThread pc) ∨
      k.stack k.currentThread ≠ [] ∧ Quiet k k' := by
  rcases step_program hinner hs with ⟨a, o, pc, data, rfl, hst, hnext, hpub, he⟩ | ⟨a, rfl, he⟩ | h
  · obtain ⟨rfl, hpc⟩ : k'.data = data ∧ k'.pc = Function.update k.pc k.currentThread pc := by
      rcases exec_program he with hq | ⟨join, start, rfl, hpc, hdata, -⟩
      · exact ⟨hq.data, hq.pc⟩
      · refine ⟨hdata, ?_⟩
        -- the new process starts where a process that does not exist yet is
        obtain ⟨-, rfl, -⟩ := (turn_of_next hnext).of_fork
        rw [hpc]
        simp only [advance_pc, advance_numThreads]
        rw [Function.update_comm hp.current_lt.ne, ← hfresh k.numThreads le_rfl,
          Function.update_eq_self]
    exact .inl ⟨a, o, pc, rfl, hst, turn_of_next hnext, hpub, he, hpc⟩
  · obtain ⟨sems, data, heq, hq⟩ := handle_program he
    have hne : k.stack k.currentThread ≠ [] := by
      intro hnil
      simp [step, hnil] at hs
    obtain rfl : data = k.data := by
      cases a with
      | handle sems' =>
          cases heq
          rfl
      | _ => cases heq
    exact .inr ⟨hne, hq⟩
  · exact .inr h

theorem Orderly.of_quiet (h : Orderly k)
    (hinner : ∀ t o, .call o ∈ k.stack t → o.isInner = true) (hk' : step client k lab = .ok k')
    (hs : k.stack k.currentThread ≠ []) (hq : Quiet k k') : Orderly k' := by
  have hlog : ∀ e, (∃ u t, e = .joinCalled u t) ∨ (∃ t, e = .finishCalled t) → e ∈ k'.log →
      e ∈ k.log := fun e he => mem_log_of_frame hinner hk' hs he
  refine ⟨?_, ?_, ?_, ?_, ?_, ?_, ?_, ?_, ?_⟩
  · rw [hq.pc, hq.numThreads]
    exact h.fresh
  · intro t hmem
    rw [hq.pc]
    exact h.finished t (hlog _ (.inr ⟨t, rfl⟩) hmem)
  · rw [hq.pc, hq.data]
    exact h.exits
  · rw [hq.pc, hq.numThreads, hq.join]
    exact h.child
  · rw [hq.data, hq.numThreads, hq.join]
    exact h.returned
  · rw [hq.data, hq.numThreads]
    exact h.table
  · rw [hq.pc, hq.numThreads]
    exact h.tested
  · intro u i t hpc
    rw [hq.pc] at hpc
    rw [hq.numThreads, hq.join]
    obtain ⟨hmem, h'⟩ := h.reading u i t hpc
    exact ⟨mem_log_of_step hk' rfl hmem, h'⟩
  · exact fun u t hmem => h.joining u t (hlog _ (.inl ⟨u, t, rfl⟩) hmem)

/-- What the processes that exist keep in a step. -/
theorem exec_keeps {o : Call Pc} {pc : Pc} {data : Data}
    (he : (k.advance pc data).exec o = .ok k') :
    k.numThreads ≤ k'.numThreads ∧ (∀ t < k.numThreads, k'.join t = k.join t) ∧
      ∀ c j start, o = .fork c j start → c < k'.numThreads ∧ k'.join c = j := by
  rcases exec_program he with hq | ⟨join, start, rfl, -, -, hnum, hjoin⟩
  · refine ⟨hq.numThreads.ge, fun t _ => by rw [hq.join]; rfl, ?_⟩
    rintro c j start rfl
    simp only [exec, fork] at he
    split at he
    · cases he
      have := hq.numThreads
      simp at this
    · cases he
  · refine ⟨by rw [hnum]; exact Nat.le_succ _, ?_, ?_⟩
    · intro t ht
      rw [hjoin]
      exact Function.update_of_ne ht.ne _ _
    · intro c j start' heq
      cases heq
      rw [hnum, hjoin]
      exact ⟨Nat.lt_succ_self _, Function.update_self ..⟩

section

variable {t : Tid} {pc pc' : Pc} {d d' : Data} {view : View} {o : Call Pc}

theorem Turn.grows (h : Turn t d view pc o pc' d') : ∀ e ∈ d.history, e ∈ d'.history := by
  cases h <;> simp +contextual [Data.note]

theorem Turn.joinValue (h : Turn t d view pc o pc' d') {u : Tid} (hu : u ≠ t) :
    d'.joinValue u = d.joinValue u := by
  cases h <;> simp [Data.note, hu]

theorem Turn.exits (h : Turn t d view pc o pc' d')
    (hpc : pc.exits = true → .exitCalled t (d.joinValue t) ∈ d.history) (hpc' : pc'.exits = true) :
    .exitCalled t (d'.joinValue t) ∈ d'.history := by
  cases h with
  | exit status => simp [Data.note]
  | _ => first | exact hpc rfl | cases hpc'

theorem Turn.child (h : Turn t d view pc o pc' d') {c : Tid} {j : ℤ}
    (hc : pc'.child = some (c, j)) : pc.child = some (c, j) ∨ o = .fork c j .run := by
  cases h with
  | exec child join =>
      cases hc
      exact .inr rfl
  | _ => first | exact .inl hc | cases hc

theorem Turn.returned (h : Turn t d view pc o pc' d') {p c : Tid} {id j : ℤ}
    (hmem : .execReturned p c id j ∈ d'.history) :
    .execReturned p c id j ∈ d.history ∨ pc.child = some (c, j) := by
  cases h with
  | execReturn child join processID =>
      simp only [Data.note, List.mem_cons, Record.execReturned.injEq] at hmem
      rcases hmem with ⟨-, rfl, -, rfl⟩ | hmem
      · exact .inr rfl
      · exact .inl hmem
  | _ => exact .inl (by simpa [Data.note] using hmem)

theorem Turn.table (h : Turn t d view pc o pc' d') {i : ℤ} {s : Tid}
    (hget : d'.tablePtr.get i = some s) :
    d.tablePtr.get i = some s ∨ ∃ j, pc.child = some (s, j) := by
  cases h with
  | execAlloc child join =>
      rcases Table.get_alloc hget with hget | rfl
      · exact .inl hget
      · exact .inr ⟨join, rfl⟩
  | exitReleased m => exact .inl (Table.get_of_release hget)
  | _ => exact .inl hget

theorem Turn.tested (h : Turn t d view pc o pc' d') {i : ℤ} {r : Option Tid}
    (hpc : pc' = .joinTest i r) : pc = .joinGet i ∧ r = d.tablePtr.get (i - 1) ∧ d' = d := by
  cases h with
  | joinGet id =>
      cases hpc
      exact ⟨rfl, rfl, rfl⟩
  | _ => cases hpc

theorem Turn.reading (h : Turn t d view pc o pc' d') {i : ℤ} {s : Tid}
    (hpc : pc' = .joinRead i s) : o = .join s ∧ pc = .joinTest i (some s) ∧ d' = d := by
  cases h with
  | joinCall id s =>
      cases hpc
      exact ⟨rfl, rfl, rfl⟩
  | _ => cases hpc

end

theorem Orderly.of_turn {o : Call Pc} {pc : Pc} (h : Orderly k) (hp : k.Placed)
    (hturn : Turn k.currentThread k.data k.view (k.pc k.currentThread) o pc k'.data)
    (he : (k.advance pc k'.data).exec o = .ok k')
    (hpc : k'.pc = Function.update k.pc k.currentThread pc) : Orderly k' := by
  obtain ⟨hnum, hjoin, hfork⟩ := exec_keeps he
  have hlog : ∀ e, e.about = none → (e ∈ k'.log ↔ e ∈ (Frame.call o).deeds k.currentThread ∨
      e ∈ k.log) := by
    intro e hab
    have hm := (unmarked_mark k (k.advance pc k'.data) rfl rfl rfl rfl rfl (.call o)).trans
      (unmarked_exec he)
    rw [hm.mem_log hab, mem_mark_log]
  have hold : ∀ u, u ≠ k.currentThread → k'.pc u = k.pc u := by
    intro u hu
    rw [hpc]
    exact Function.update_of_ne hu _ _
  have hnew : k'.pc k.currentThread = pc := by
    rw [hpc]
    exact Function.update_self ..
  have hkeep : ∀ c j, c < k.numThreads ∧ k.join c = j → c < k'.numThreads ∧ k'.join c = j :=
    fun c j hc => ⟨hc.1.trans_le hnum, (hjoin c hc.1).trans hc.2⟩
  have hchild : ∀ c j, (k.pc k.currentThread).child = some (c, j) →
      c < k'.numThreads ∧ k'.join c = j := fun c j hc => hkeep c j (h.child _ c j hc)
  refine ⟨?_, ?_, ?_, ?_, ?_, ?_, ?_, ?_, ?_⟩
  · intro u hu
    rw [hold u (by rintro rfl; exact absurd hp.current_lt (not_lt.2 (hnum.trans hu)))]
    exact h.fresh u (hnum.trans hu)
  · intro t hmem
    rw [hlog _ rfl] at hmem
    rcases hmem with hmem | hmem
    · cases o with
      | finish =>
          obtain rfl : t = k.currentThread := by simpa [Frame.deeds] using hmem
          rw [hnew, hturn.of_finish]
      | _ => simp [Frame.deeds] at hmem
    · have ht := h.finished t hmem
      by_cases htc : t = k.currentThread
      · subst htc
        rw [ht] at hturn
        cases hturn
      · rw [hold t htc, ht]
  · intro t hex
    by_cases htc : t = k.currentThread
    · subst htc
      rw [hnew] at hex
      exact hturn.exits (h.exits _) hex
    · rw [hold t htc] at hex
      rw [hturn.joinValue htc]
      exact hturn.grows _ (h.exits t hex)
  · intro u c j hc
    by_cases huc : u = k.currentThread
    · subst huc
      rw [hnew] at hc
      rcases hturn.child hc with hc | rfl
      · exact hchild c j hc
      · exact hfork c j _ rfl
    · rw [hold u huc] at hc
      exact hkeep c j (h.child u c j hc)
  · intro p c id j hmem
    rcases hturn.returned hmem with hmem | hc
    · exact hkeep c j (h.returned p c id j hmem)
    · exact hchild c j hc
  · intro i t hget
    rcases hturn.table hget with hget | ⟨j, hc⟩
    · exact (h.table i t hget).trans_le hnum
    · exact (hchild t j hc).1
  · intro u i t htest
    by_cases huc : u = k.currentThread
    · subst huc
      rw [hnew] at htest
      obtain ⟨-, hget, -⟩ := hturn.tested htest
      exact (h.table _ t hget.symm).trans_le hnum
    · rw [hold u huc] at htest
      exact (h.tested u i t htest).trans_le hnum
  · intro u i t hread
    by_cases huc : u = k.currentThread
    · subst huc
      rw [hnew] at hread
      obtain ⟨rfl, htest, -⟩ := hturn.reading hread
      have ht := h.tested _ i t htest
      simp only [exec, joinCall, assertThen_ok] at he
      obtain ⟨⟨hj, -, hne, -⟩, -⟩ := he
      have hj' : k.join t = 1 := hj
      refine ⟨(hlog _ rfl).2 (.inl (by simp [Frame.deeds])), hne, ht.trans_le hnum, ?_⟩
      rw [hjoin t ht, hj']
      decide
    · rw [hold u huc] at hread
      obtain ⟨hmem, hne, ht, hj⟩ := h.reading u i t hread
      exact ⟨(hlog _ rfl).2 (.inr hmem), hne, ht.trans_le hnum, by rwa [hjoin t ht]⟩
  · intro u t hmem
    rw [hlog _ rfl] at hmem
    rcases hmem with hmem | hmem
    · cases o with
      | join s =>
          obtain ⟨rfl, rfl⟩ : u = k.currentThread ∧ t = s := by simpa [Frame.deeds] using hmem
          simp only [exec, joinCall, assertThen_ok] at he
          exact he.1.2.2.1
      | _ => simp [Frame.deeds] at hmem
    · exact h.joining u t hmem

theorem Orderly.init (maxProcess : ℕ) (joinValue : Tid → ℤ) (initialValue : ℕ → ℤ) :
    Orderly (Kernel.init .run (start maxProcess joinValue) initialValue) := by
  refine ⟨?_, ?_, ?_, ?_, ?_, ?_, ?_, ?_, ?_⟩
  · exact fun _ _ => rfl
  · simp [Kernel.init]
  · simp [Kernel.init, Pc.exits]
  · simp [Kernel.init, Pc.child]
  · simp [Kernel.init, start]
  · intro i t hget
    rcases Table.get_alloc hget with hget | rfl
    · simp at hget
    · exact Nat.one_pos
  · simp [Kernel.init]
  · simp [Kernel.init]
  · simp [Kernel.init]

theorem Orderly.step (h : Orderly k) (hp : k.Placed)
    (hinner : ∀ t o, .call o ∈ k.stack t → o.isInner = true)
    (hs : Kernel.step client k lab = .ok k') : Orderly k' := by
  rcases step_turn h.fresh hp hinner hs with ⟨a, o, pc, -, -, hturn, -, he, hpc⟩ | ⟨hne, hq⟩
  · exact h.of_turn hp hturn he hpc
  · exact h.of_quiet hinner hs hne hq

theorem orderly_of_runs {maxProcess : ℕ} {joinValue : Tid → ℤ} {initialValue : ℕ → ℤ}
    (h : Runs client .run (start maxProcess joinValue) initialValue k) : Orderly k :=
  Reachable.invariant (Orderly.init maxProcess joinValue initialValue)
    (fun _ _ _ hk hi hs => hi.step (Runs.placed hk) (Runs.inner hk) hs) h

/-! ## The status that `Join2` returns -/

/-- The last call of Join by the process `t`, with what has been recorded before it. -/
def callOf (t : Tid) : List Record → Option (ℤ × List Record)
  | [] => none
  | .joinCalled u id :: rest => if u = t then some (id, rest) else callOf t rest
  | _ :: rest => callOf t rest

/-- An Exec has started `c` with the join bit and has returned `id`. -/
def Returned (id : ℤ) (c : Tid) (history : List Record) : Prop :=
  ∃ p, .execReturned p c id 1 ∈ history

/-- The last call of Join by `t` is for `id`, after an Exec has returned `id` for `c`. -/
def After (id : ℤ) (c t : Tid) (history : List Record) : Prop :=
  ∃ before, callOf t history = some (id, before) ∧ Returned id c before

/-- Every Join of `id` that is called after an Exec has returned `id` for `c` returns what
`c` has passed to Exit. -/
def Joined (id : ℤ) (c : Tid) (history : List Record) : Prop :=
  ∀ t value rest, .joinReturned t id value :: rest <:+ history → After id c t rest →
    .exitCalled c value ∈ rest

/-- When `Join2` looks `id` up, the slot still holds `c`; when it calls `Join` on `c`, nobody has
before; and when it reads the status, the `Thread` has not been deleted. -/
def Timely (id : ℤ) (c : Tid) (k : Kernel Pc Data) : Label Act → Prop
  | .act _ =>
      match k.pc k.currentThread with
      | .joinGet i =>
          i = id → Returned id c k.data.history → k.data.tablePtr.get (id - 1) = some c
      | .joinTest _ (some t) => t = c → ∀ u, .joinCalled u c ∉ k.log
      | .joinRead _ t => t = c → k.deleted c = false
      | _ => True
  | _ => True

theorem Timely.get {id : ℤ} {c : Tid} {a : Act} (h : Timely id c k (.act a))
    (hpc : k.pc k.currentThread = .joinGet id) (hret : Returned id c k.data.history) :
    k.data.tablePtr.get (id - 1) = some c := by
  unfold Timely at h
  rw [hpc] at h
  exact h rfl hret

theorem Timely.first {id i : ℤ} {c : Tid} {a : Act} (h : Timely id c k (.act a))
    (hpc : k.pc k.currentThread = .joinTest i (some c)) : ∀ u, .joinCalled u c ∉ k.log := by
  unfold Timely at h
  rw [hpc] at h
  exact h rfl

theorem Timely.alive {id i : ℤ} {c : Tid} {a : Act} (h : Timely id c k (.act a))
    (hpc : k.pc k.currentThread = .joinRead i c) : k.deleted c = false := by
  unfold Timely at h
  rw [hpc] at h
  exact h rfl

structure Sound (id : ℤ) (c : Tid) (k : Kernel Pc Data) : Prop where
  once : ∀ u u', .joinCalled u c ∈ k.log → .joinCalled u' c ∈ k.log → u = u'
  tested : ∀ t r, k.pc t = .joinTest id r → After id c t k.data.history → r = some c
  read : ∀ t s, k.pc t = .joinRead id s → After id c t k.data.history → s = c
  joined : Joined id c k.data.history

theorem callOf_suffix {t : Tid} {id : ℤ} {history before : List Record}
    (h : callOf t history = some (id, before)) : before <:+ history := by
  induction history with
  | nil => cases h
  | cons e history ih =>
      cases e with
      | joinCalled u i =>
          simp only [callOf] at h
          split at h
          · cases h
            exact List.suffix_cons _ _
          · exact (ih h).trans (List.suffix_cons _ _)
      | _ => exact (ih h).trans (List.suffix_cons _ _)

theorem After.returned {id : ℤ} {c t : Tid} {history : List Record} (h : After id c t history) :
    Returned id c history := by
  obtain ⟨before, hcall, p, hmem⟩ := h
  exact ⟨p, (callOf_suffix hcall).subset hmem⟩

/-- A turn of `t` leaves the calls of the other processes alone. -/
theorem Turn.after {t u : Tid} {pc pc' : Pc} {d d' : Data} {view : View} {o : Call Pc}
    (h : Turn t d view pc o pc' d') (hu : u ≠ t) {id : ℤ} {c : Tid} (ha : After id c u d'.history) :
    After id c u d.history := by
  cases h with
  | join i =>
      have hcall : callOf u (d.note (.joinCalled t i)).history = callOf u d.history := by
        simp [Data.note, callOf, hu.symm]
      unfold After at ha ⊢
      rwa [hcall] at ha
  | _ => exact ha

theorem Sound.of_quiet {id : ℤ} {c : Tid} (h : Sound id c k)
    (hinner : ∀ t o, .call o ∈ k.stack t → o.isInner = true) (hk' : step client k lab = .ok k')
    (hs : k.stack k.currentThread ≠ []) (hq : Quiet k k') : Sound id c k' := by
  refine ⟨?_, ?_, ?_, ?_⟩
  · intro u u' hu hu'
    exact h.once u u' (mem_log_of_frame hinner hk' hs (.inl ⟨u, c, rfl⟩) hu)
      (mem_log_of_frame hinner hk' hs (.inl ⟨u', c, rfl⟩) hu')
  · rw [hq.pc, hq.data]
    exact h.tested
  · rw [hq.pc, hq.data]
    exact h.read
  · rw [hq.data]
    exact h.joined

section

variable {maxProcess : ℕ} {joinValue : Tid → ℤ} {initialValue : ℕ → ℤ}

/-- A process that nobody has joined and that can be joined has not been deleted. -/
theorem not_deleted (hr : Runs client .run (start maxProcess joinValue) initialValue k) {c : Tid}
    (hjoin : k.join c ≠ 0) (hnone : ∀ u, .joinCalled u c ∉ k.log) : k.deleted c = false := by
  by_contra hdel
  have hmem : .finishCompleted c ∈ k.log := hr.buried c (.inr (by simpa using hdel))
  obtain ⟨jp, fp, hh⟩ := hr.handshake (p := c + 1) (by simp) fun u hu => absurd hu (hnone u)
  have hf := hh.finishCompleted hmem
  have hj := hh.fits.exiting (by omega) hjoin
  exact hnone _ (hh.joinCalled.2 (by omega))

/-- A process that is back from the only `Join` on `c` finds `c` after its Exit. -/
theorem exited_of_joined (hr : Runs client .run (start maxProcess joinValue) initialValue k)
    {c : Tid} {i : ℤ} (hpc : k.pc k.currentThread = .joinRead i c)
    (hs : k.stack k.currentThread = [])
    (honce : ∀ u u', .joinCalled u c ∈ k.log → .joinCalled u' c ∈ k.log → u = u') :
    .exitCalled c (k.data.joinValue c) ∈ k.data.history := by
  have ho := orderly_of_runs hr
  obtain ⟨hmem, hne, -, -⟩ := ho.reading _ i c hpc
  obtain ⟨jp, fp, hh⟩ := hr.handshake hne fun u hu => honce u _ hu hmem
  have hjoin := hh.join
  rw [hs] at hjoin
  have hj := hh.joinCalled.1 hmem
  have hf : 1 ≤ fp.rank := by
    rcases hjoin.of_nil with rfl | rfl
    · simp [JoinPhase.rank] at hj
    · exact hh.fits.served (.inl (by simp [JoinPhase.rank]))
  have hexited := ho.finished c (hh.finishCalled.2 hf)
  exact ho.exits c (by rw [hexited]; rfl)

/-- What a turn of a process records of the end of a Join. -/
theorem Turn.joined {t : Tid} {pc pc' : Pc} {d d' : Data} {view : View} {o : Call Pc}
    (h : Turn t d view pc o pc' d') {id : ℤ} {c : Tid} (hj : Joined id c d.history)
    (htest : ∀ r, pc = .joinTest id r → After id c t d.history →
      r = some c ∧ view.deleted c = false ∧ view.join c ≠ 0)
    (hread : ∀ s, pc = .joinRead id s → After id c t d.history →
      s = c ∧ view.deleted c = false ∧ .exitCalled c (d.joinValue c) ∈ d.history) :
    Joined id c d'.history := by
  -- a record that is not the end of a Join of `id`
  have hcons : ∀ e, (∀ value, After id c t d.history → e = .joinReturned t id value →
      .exitCalled c value ∈ d.history) → (∀ u value, u ≠ t → e ≠ .joinReturned u id value) →
        Joined id c (e :: d.history) := by
    intro e he hother u value rest hsuf ha
    rcases List.suffix_cons_iff.1 hsuf with heq | hsuf
    · cases heq
      by_cases hut : u = t
      · subst hut
        exact he value ha rfl
      · exact absurd rfl (hother u value hut)
    · exact hj u value rest hsuf ha
  cases h with
  | join i => exact hcons _ (by simp) (by simp)
  | exit status => exact hcons _ (by simp) (by simp)
  | execReturn child join processID => exact hcons _ (by simp) (by simp)
  | joinNone i =>
      refine hcons _ ?_ fun u value hu heq => hu (by cases heq; rfl)
      intro value ha heq
      cases heq
      cases (htest none rfl ha).1
  | joinRefused i s hrefused =>
      refine hcons _ ?_ fun u value hu heq => hu (by cases heq; rfl)
      intro value ha heq
      cases heq
      obtain ⟨hs, hdel, hjoin⟩ := htest (some s) rfl ha
      cases hs
      rcases hrefused with hd | hj
      · simp [hdel] at hd
      · exact absurd hj hjoin
  | joinRead i s value hvalue =>
      refine hcons _ ?_ fun u value hu heq => hu (by cases heq; rfl)
      intro value' ha heq
      cases heq
      obtain ⟨rfl, hdel, hmem⟩ := hread s rfl ha
      rwa [hvalue hdel]
  | _ => exact hj

/-- A turn that calls `Join` on a `Thread` on which nobody has called it before is the only
caller. -/
theorem once_of_turn {c : Tid} {o : Call Pc} {pc : Pc}
    (hturn : Turn k.currentThread k.data k.view (k.pc k.currentThread) o pc k'.data)
    (he : (k.advance pc k'.data).exec o = .ok k')
    (hfirst : ∀ i, k.pc k.currentThread = .joinTest i (some c) → ∀ u, .joinCalled u c ∉ k.log)
    (honce : ∀ u u', .joinCalled u c ∈ k.log → .joinCalled u' c ∈ k.log → u = u') :
    ∀ u u', .joinCalled u c ∈ k'.log → .joinCalled u' c ∈ k'.log → u = u' := by
  have hm := (unmarked_mark k (k.advance pc k'.data) rfl rfl rfl rfl rfl (.call o)).trans
    (unmarked_exec he)
  intro u u' hu hu'
  rw [hm.mem_log rfl, mem_mark_log] at hu hu'
  by_cases hjoin : o = .join c
  · subst hjoin
    obtain ⟨i, hpc₀, -⟩ := hturn.of_join
    have hnone := hfirst i hpc₀
    simp only [Frame.deeds, List.mem_singleton, Event.joinCalled.injEq, and_true, hnone,
      or_false] at hu hu'
    rw [hu, hu']
  · have hno : ∀ u, .joinCalled u c ∉ (Frame.call o).deeds k.currentThread := by
      intro u hmem
      cases o with
      | join s =>
          obtain ⟨-, rfl⟩ : u = k.currentThread ∧ c = s := by simpa [Frame.deeds] using hmem
          exact hjoin rfl
      | _ => simp [Frame.deeds] at hmem
    exact honce u u' (hu.resolve_left (hno u)) (hu'.resolve_left (hno u'))

theorem Sound.of_turn {id : ℤ} {c : Tid} {a : Act} {o : Call Pc} {pc : Pc}
    (hr : Runs client .run (start maxProcess joinValue) initialValue k) (h : Sound id c k)
    (htime : Timely id c k (.act a)) (hs : k.stack k.currentThread = [])
    (hturn : Turn k.currentThread k.data k.view (k.pc k.currentThread) o pc k'.data)
    (he : (k.advance pc k'.data).exec o = .ok k')
    (hpc : k'.pc = Function.update k.pc k.currentThread pc) : Sound id c k' := by
  have ho := orderly_of_runs hr
  have hold : ∀ u, u ≠ k.currentThread → k'.pc u = k.pc u := by
    intro u hu
    rw [hpc]
    exact Function.update_of_ne hu _ _
  have hnew : k'.pc k.currentThread = pc := by
    rw [hpc]
    exact Function.update_self ..
  refine ⟨?_, ?_, ?_, ?_⟩
  · exact once_of_turn hturn he (fun i hpc₀ => htime.first hpc₀) h.once
  · intro t r hpct ha
    by_cases htc : t = k.currentThread
    · subst htc
      rw [hnew] at hpct
      subst hpct
      obtain ⟨hget, rfl, hdata⟩ := hturn.tested rfl
      rw [hdata] at ha
      exact htime.get hget ha.returned
    · rw [hold t htc] at hpct
      exact h.tested t r hpct (hturn.after htc ha)
  · intro t s hpct ha
    by_cases htc : t = k.currentThread
    · subst htc
      rw [hnew] at hpct
      subst hpct
      obtain ⟨rfl, htest, hdata⟩ := hturn.reading rfl
      rw [hdata] at ha
      exact Option.some.inj (h.tested _ _ htest ha)
    · rw [hold t htc] at hpct
      exact h.read t s hpct (hturn.after htc ha)
  · refine hturn.joined h.joined ?_ ?_
    · intro r hpc₀ ha
      obtain rfl := h.tested _ r hpc₀ ha
      obtain ⟨p, hmem⟩ := ha.returned
      have hjoin : k.join c ≠ 0 := by
        rw [(ho.returned p c id 1 hmem).2]
        decide
      exact ⟨rfl, not_deleted hr hjoin (htime.first hpc₀), hjoin⟩
    · intro s hpc₀ ha
      obtain rfl := h.read _ s hpc₀ ha
      exact ⟨rfl, htime.alive hpc₀, exited_of_joined hr hpc₀ hs h.once⟩

/-- In a run in which `Join2` finds the slot of `c` as Exec has left it, is the first to
join `c` and reads the status before the `Thread` is deleted, every Join of `id` returns what
`c` has passed to Exit. -/
theorem join_returns_exit_status (id : ℤ) (c : Tid) (maxProcess : ℕ) (joinValue : Tid → ℤ)
    (initialValue : ℕ → ℤ) (labs : List (Label Act)) (k : Kernel Pc Data)
    (hmeets : Meets (step client) (Timely id c)
      (init .run (start maxProcess joinValue) initialValue) labs)
    (hrun : runFrom (step client) (init .run (start maxProcess joinValue) initialValue) labs =
      .ok k) : Joined id c k.data.history := by
  have hinv := invariant_of_meets (P := Timely id c)
    (I := fun k => Runs client .run (start maxProcess joinValue) initialValue k ∧ Sound id c k)
    ?_ ⟨Reachable.refl _ _, ?_⟩ hmeets hrun
  · exact hinv.2.joined
  · rintro k lab k' ⟨hr, h⟩ htime hs
    refine ⟨hr.tail hs, ?_⟩
    rcases step_turn (orderly_of_runs hr).fresh hr.placed hr.inner hs with
      ⟨a, o, pc, rfl, hst, hturn, -, he, hpc⟩ | ⟨hne, hq⟩
    · exact h.of_turn hr htime hst hturn he hpc
    · exact h.of_quiet hr.inner hs hne hq
  · refine ⟨by simp [Kernel.init], by simp [Kernel.init], by simp [Kernel.init], ?_⟩
    intro t value rest hsuf
    simp [Kernel.init, start] at hsuf

end

/-- A process goes on in its system call. -/
def proceed (n : ℕ) : List (Label Act) := turns [(.goOn 0, n)]

/-- The first process starts another one, which gets the id 2. -/
def execChild : List (Label Act) :=
  Label.act (Act.exec 1 1) :: List.replicate 3 Label.go ++ proceed 4 ++ proceed 3 ++ proceed 2

/-- The first process joins the other one, which then exits. -/
def joinThenExit : List (Label Act) :=
  execChild ++ Label.act (Act.join 2) :: List.replicate 4 Label.go ++ proceed 3 ++ proceed 15 ++
    Label.act (Act.exit 1128) :: List.replicate 4 Label.go ++
      (List.replicate 50 (proceed 3 ++ proceed 4)).flatten ++ proceed 3 ++ proceed 27 ++ proceed 0

/-- The condition `Timely 2 1` as a test. -/
def timelyTest (k : Kernel Pc Data) : Label Act → Bool
  | .act _ =>
      match k.pc k.currentThread with
      | .joinGet _ => k.data.tablePtr.get 1 = some 1
      | .joinTest _ (some _) => k.log.all fun e => (joinerOf e).isNone
      | .joinRead _ _ => k.deleted 1 = false
      | _ => true
  | _ => true

theorem timely_of_test {lab : Label Act} (h : timelyTest k lab = true) : Timely 2 1 k lab := by
  unfold timelyTest at h
  unfold Timely
  cases lab with
  | act a =>
      cases hpc : k.pc k.currentThread with
      | joinGet i => simp_all
      | joinTest i s =>
          cases s with
          | none => trivial
          | some t =>
              simp only [hpc, List.all_eq_true] at h
              intro _ u hu
              simpa [joinerOf] using h _ hu
      | joinRead i t => simp_all
      | _ => trivial
  | _ => trivial

theorem join_returns_exit_status_1128 :
    ∃ labs k, Meets (step client) (Timely 2 1) (init .run (start 14 fun _ => 0) fun _ => 0) labs ∧
      runFrom (step client) (init .run (start 14 fun _ => 0) fun _ => 0) labs = .ok k ∧
        k.data.history = [.joinReturned 0 2 1128, .exitCalled 1 1128, .joinCalled 0 2,
          .execReturned 0 1 2 1] ∧ Joined 2 1 k.data.history := by
  have hpass : passesMeeting (step client) timelyTest
      (fun k => k.data.history = [.joinReturned 0 2 1128, .exitCalled 1 1128, .joinCalled 0 2,
        .execReturned 0 1 2 1]) (init .run (start 14 fun _ => 0) fun _ => 0)
          joinThenExit = true := by
    decide +kernel
  obtain ⟨hmeets, k, hrun, hhist⟩ := of_passesMeeting hpass
  replace hmeets := hmeets.imp (Q := Timely 2 1) fun _ _ => timely_of_test
  exact ⟨_, k, hmeets, hrun, by simpa using hhist,
    join_returns_exit_status 2 1 14 _ _ _ k hmeets hrun⟩

/-- The other process exits, and is interrupted when it has released its slot. -/
def exitThenJoin : List (Label Act) :=
  execChild ++ Label.act (Act.other .yield) :: List.replicate 3 Label.go ++
    Label.act (Act.exit 1128) :: List.replicate 4 Label.go ++ proceed 3 ++ proceed 4 ++ proceed 3 ++
      proceed 4 ++ proceed 2 ++ Label.timer :: List.replicate 5 Label.go ++
        Label.act (Act.join 2) :: List.replicate 4 Label.go ++ proceed 3 ++ proceed 0

/-- Join after Exit: the id is not in the table any more. -/
theorem join_after_exit_fails :
    ∃ k, Runs client .run (start 14 fun _ => 0) (fun _ => 0) k ∧
      k.data.history = [.joinReturned 0 2 (-65535), .joinCalled 0 2, .exitCalled 1 1128,
        .execReturned 0 1 2 1] ∧ ¬ Joined 2 1 k.data.history := by
  have hpass : passes (step client) (init .run (start 14 fun _ => 0) fun _ => 0) exitThenJoin
      (fun k => k.data.history = [.joinReturned 0 2 (-65535), .joinCalled 0 2, .exitCalled 1 1128,
        .execReturned 0 1 2 1]) = true := by
    decide +kernel
  obtain ⟨k, hk, hhist⟩ := exists_of_passes _ hpass
  replace hhist := of_decide_eq_true hhist
  refine ⟨k, hk, hhist, ?_⟩
  intro hj
  rw [hhist] at hj
  have := hj 0 (-65535) _ (List.suffix_refl _) ⟨_, rfl, 0, by simp⟩
  simp at this

/-! ## When the status is read -/

/-- When `Join2` calls `getJoinValue`, the `Thread` has not been deleted. -/
def ReadsInTime (k : Kernel Pc Data) : Prop :=
  ∀ i t, k.pc k.currentThread = .joinRead i t → k.stack k.currentThread = [] → k.deleted t = false

/-- The time slice does not end in the last `Release` of `Join`, and `Join2` calls `Join` on a
`Thread` on which nobody has called it before. -/
def Unhurried (k : Kernel Pc Data) : Label Act → Prop
  | .timer => ∀ t, k.stack k.currentThread ≠ [.firing, .joinReturn t]
  | .act _ => ∀ i t, k.pc k.currentThread = .joinTest i (some t) → ∀ u, .joinCalled u t ∉ k.log
  | _ => True

/-- The thread `u` has made its last `Signal` in `Join` on `t`. -/
def Leaves (k : Kernel Pc Data) (u t : Tid) : Prop :=
  .joinReturn t ∈ k.stack u ∧ .joinBody t ∉ k.stack u ∧
    .call (.signal (.ofThread t) (.ofThread t)) ∉ k.stack u

/-- What it then has left to do, with no `Yield` in it. -/
inductive Closing (t : Tid) : List (Frame Pc) → Prop
  | release : Closing t [.call (.release (.ofThread t)), .joinReturn t]
  | setLevel (old : IntStatus) : Closing t [.setLevel old, .joinReturn t]
  | oneTick : Closing t [.oneTick, .joinReturn t]
  | firing : Closing t [.firing, .joinReturn t]
  | returns : Closing t [.joinReturn t]

structure Prompt (k : Kernel Pc Data) : Prop where
  once : ∀ t u u', .joinCalled u t ∈ k.log → .joinCalled u' t ∈ k.log → u = u'
  inJoin : ∀ u t, .joinReturn t ∈ k.stack u → ∃ i, k.pc u = .joinRead i t
  inside : ∀ u i t, k.pc u = .joinRead i t → k.stack u = [] ∨ .joinReturn t ∈ k.stack u
  leaves : ∀ u t, Leaves k u t → u = k.currentThread ∧ k.deleted t = false ∧ Closing t (k.stack u)
  read : ∀ u i t, k.pc u = .joinRead i t → k.stack u = [] →
    u = k.currentThread ∧ k.deleted t = false

section

variable {maxProcess : ℕ} {joinValue : Tid → ℤ} {initialValue : ℕ → ℤ}

theorem Prompt.handshake (h : Prompt k)
    (hr : Runs client .run (start maxProcess joinValue) initialValue k) {u t : Tid} {i : ℤ}
    (hpc : k.pc u = .joinRead i t) : ∃ jp fp, Handshake u t jp fp k := by
  obtain ⟨hmem, hne, -, -⟩ := (orderly_of_runs hr).reading u i t hpc
  exact hr.handshake hne fun w hw => h.once t w u hw hmem

/-- Only a call of `Join` puts its return on a stack. -/
theorem joinReturn_mem {me t : Tid} {f : Frame Pc} {new : List (Frame Pc)} (h : f.Next me new)
    (hmem : .joinReturn t ∈ new) : f = .call (.join t) := by
  cases h with
  | call o new h => cases h <;> simp_all
  | _ => simp_all

/-- A step that does not end in `SWITCH` keeps the CPU. -/
theorem current_of_stack (hp : k.Placed) (hs : Kernel.step client k lab = .ok k')
    {fs : List (Frame Pc)} (hfs : k'.stack k.currentThread = fs)
    (hne : ∀ gs, fs ≠ .afterSwitch :: gs) : k'.currentThread = k.currentThread := by
  obtain ⟨fs', -, hstack, -, hcur⟩ := step_stack hp.current_lt hs
  rcases hcur with hcur | ⟨gs, rfl⟩
  · exact hcur
  · rw [hstack, Function.update_self] at hfs
    exact absurd hfs.symm (hne gs)

/-- The last steps of `Join` keep the CPU, unless the time slice ends. -/
theorem Closing.step {u t : Tid} (hp : k.Placed) (hs : Kernel.step client k lab = .ok k')
    (hu : u = k.currentThread) (hlab : Unhurried k lab) (h : Closing t (k.stack u)) :
    k'.currentThread = u ∧ k'.deleted = k.deleted ∧ (Closing t (k'.stack u) ∨ k'.stack u = []) := by
  subst hu
  obtain ⟨f, rest, hfs⟩ : ∃ f rest, k.stack k.currentThread = f :: rest := by
    cases hk : k.stack k.currentThread with
    | nil =>
        rw [hk] at h
        cases h
    | cons f rest => exact ⟨f, rest, rfl⟩
  have hm := unmarked_top hs hfs
  obtain ⟨new, hn, hnew⟩ := next_of_top hp hs hfs
  have hdel : f ≠ .afterSwitch → k'.deleted = k.deleted := by
    intro hf
    rw [hm.deleted]
    cases f with
    | call o => cases o <;> rfl
    | afterSwitch => exact absurd rfl hf
    | _ => rfl
  have hstay := current_of_stack hp hs hnew
  rw [hfs] at h
  rw [hnew]
  cases h with
  | release =>
      cases hn with
      | call _ _ hn =>
          cases hn with
          | release l old =>
              exact ⟨hstay (by simp), hdel (by simp), .inl (.setLevel old)⟩
  | setLevel old =>
      cases hn with
      | setLevel => exact ⟨hstay (by simp), hdel (by simp), .inl .returns⟩
      | setLevelTick => exact ⟨hstay (by simp), hdel (by simp), .inl .oneTick⟩
  | oneTick =>
      cases hn
      exact ⟨hstay (by simp), hdel (by simp), .inl .firing⟩
  | firing =>
      cases hn with
      | firingMore => exact ⟨hstay (by simp), hdel (by simp), .inl .firing⟩
      | firingDone => exact ⟨hstay (by simp), hdel (by simp), .inl .returns⟩
      | firingYield =>
          -- only the timer calls `Yield` here
          cases lab with
          | timer => exact absurd hfs (hlab t)
          | act a => simp [Kernel.step, hfs, resume] at hs
          | go =>
              simp only [Kernel.step, hfs, resume, Except.ok.injEq] at hs
              subst hs
              simp at hnew
          | interrupt a =>
              simp only [Kernel.step, hfs, resume] at hs
              have hpush := (handle_pushes hs).stack
              have hstack := congrFun hpush k.currentThread
              simp [hnew] at hstack
  | returns =>
      cases hn
      exact ⟨hstay (by simp), hdel (by simp), .inr rfl⟩

theorem Leaves.of_step {u t : Tid} (h : Prompt k)
    (hr : Runs client .run (start maxProcess joinValue) initialValue k)
    (hs : step client k lab = .ok k') (hlab : Unhurried k lab) (hl : Leaves k' u t) :
    u = k'.currentThread ∧ k'.deleted t = false ∧ Closing t (k'.stack u) := by
  have hp := hr.placed
  obtain ⟨hret, hbody, hsignal⟩ := hl
  by_cases hu : u = k.currentThread
  swap
  · -- another thread has moved
    rcases step_stack_cases hp.current_lt hs u with heq | ⟨rfl, -⟩ | ⟨-, -, heq⟩
    · rw [heq] at hret hbody hsignal
      exact absurd (h.leaves u t ⟨hret, hbody, hsignal⟩).1 hu
    · exact absurd rfl hu
    · simp [heq] at hret
  subst hu
  cases hfs : k.stack k.currentThread with
  | nil =>
      obtain ⟨fs, hrw, hstack, -, -⟩ := step_stack hp.current_lt hs
      rw [hfs] at hrw
      have hfs' : k'.stack k.currentThread = fs := by simp [hstack]
      rw [hfs'] at hret hbody
      cases hrw with
      | own o new ho hn =>
          cases joinReturn_mem (.call o _ hn) hret
          cases hn
          simp at hbody
  | cons f rest =>
      obtain ⟨new, hn, hnew⟩ := next_of_top hp hs hfs
      rw [hnew] at hret hbody hsignal
      have hrest : .joinReturn t ∈ rest := by
        refine (List.mem_append.1 hret).resolve_left ?_
        intro hmem
        have := hr.inner k.currentThread (.join t) (by simp [hfs, joinReturn_mem hn hmem])
        cases this
      by_cases hl : Leaves k k.currentThread t
      · obtain ⟨-, hdel, hc⟩ := h.leaves _ t hl
        obtain ⟨hcur, hdel', hc' | hnil⟩ := hc.step hp hs rfl hlab
        · exact ⟨hcur.symm, by rw [hdel', hdel], hc'⟩
        · rw [hnew] at hnil
          simp [(List.append_eq_nil_iff.1 hnil).2] at hrest
      · -- the last `Signal`
        have hmem : .joinBody t = f ∨ .call (.signal (.ofThread t) (.ofThread t)) = f := by
          by_contra hno
          rw [not_or] at hno
          refine hl ⟨by simp [hfs, hrest], ?_, ?_⟩
          · rw [hfs]
            intro hmem
            rcases List.mem_cons.1 hmem with heq | hmem
            · exact hno.1 heq
            · exact hbody (by simp [hmem])
          · rw [hfs]
            intro hmem
            rcases List.mem_cons.1 hmem with heq | hmem
            · exact hno.2 heq
            · exact hsignal (by simp [hmem])
        rcases hmem with rfl | rfl
        · cases hn
          simp at hsignal
        · obtain ⟨i, hpc⟩ := h.inJoin k.currentThread t (by simp [hfs, hrest])
          obtain ⟨jp, fp, hh⟩ := h.handshake hr hpc
          have hjoin := hh.join
          rw [hfs] at hjoin
          obtain ⟨rfl, rfl⟩ := hjoin.of_signal rfl fun hmem => hsignal (by simp [hmem])
          have hdel : k'.deleted t = false := by
            rw [(unmarked_top hs hfs).deleted]
            by_contra hdel
            have hf := hh.finishCompleted (hr.buried t (.inr (by simpa [mark] using hdel)))
            have hj := hh.fits.woken (by omega) ((orderly_of_runs hr).reading _ i t hpc).2.2.2
            simp [JoinPhase.rank] at hj
          cases hn with
          | call _ _ hn =>
              cases hn
              rw [hnew]
              exact ⟨(current_of_stack hp hs hnew (by simp)).symm, hdel, .release⟩

/-- The own code of a process goes on to its next call. -/
theorem Prompt.of_turn {o : Call Pc} {pc : Pc} {a : Act} (h : Prompt k)
    (hr : Runs client .run (start maxProcess joinValue) initialValue k)
    (hs : step client k (.act a) = .ok k') (hlab : Unhurried k (.act a))
    (hst : k.stack k.currentThread = [])
    (hturn : Turn k.currentThread k.data k.view (k.pc k.currentThread) o pc k'.data)
    (he : (k.advance pc k'.data).exec o = .ok k')
    (hpc : k'.pc = Function.update k.pc k.currentThread pc) : Prompt k' := by
  have hp := hr.placed
  obtain ⟨new, hn, hpush⟩ := exec_pushes (k := k.advance pc k'.data) hp.current_lt he
  have hown : k'.stack k.currentThread = new := by
    rw [hpush.stack]
    simp [hst]
  have hnew : k'.pc k.currentThread = pc := by
    rw [hpc]
    exact Function.update_self ..
  have hold : ∀ u, u ≠ k.currentThread → k'.pc u = k.pc u := by
    intro u hu
    rw [hpc]
    exact Function.update_of_ne hu _ _
  have hother : ∀ u, u ≠ k.currentThread → k'.stack u = k.stack u ∨
      k'.stack u = [.setLevel .intOn] ∧ k.pc u = .run := by
    intro u hu
    rcases step_stack_cases hp.current_lt hs u with heq | ⟨rfl, -⟩ | ⟨hlt, -, heq⟩
    · exact .inl heq
    · exact absurd rfl hu
    · exact .inr ⟨heq, (orderly_of_runs hr).fresh u hlt⟩
  -- the process that has called `Join` is at the start of it
  have hcall : ∀ i t, pc = .joinRead i t → .joinReturn t ∈ k'.stack k.currentThread := by
    intro i t hread
    obtain ⟨rfl, -, -⟩ := hturn.reading hread
    rw [hown]
    cases hn
    simp
  refine ⟨?_, ?_, ?_, ?_, ?_⟩
  · exact fun t => once_of_turn hturn he (fun i hpc₀ => hlab i t hpc₀) (h.once t)
  · intro u t hmem
    by_cases hu : u = k.currentThread
    · subst hu
      rw [hown] at hmem
      cases joinReturn_mem (.call o _ hn) hmem
      obtain ⟨i, -, rfl⟩ := hturn.of_join
      exact ⟨i, hnew⟩
    · rw [hold u hu]
      rcases hother u hu with heq | ⟨heq, -⟩
      · rw [heq] at hmem
        exact h.inJoin u t hmem
      · simp [heq] at hmem
  · intro u i t hread
    by_cases hu : u = k.currentThread
    · subst hu
      exact .inr (hcall i t (by rw [← hnew, hread]))
    · rw [hold u hu] at hread
      rcases hother u hu with heq | ⟨-, hrun⟩
      · rw [heq]
        exact h.inside u i t hread
      · simp [hrun] at hread
  · exact fun u t hl => Leaves.of_step h hr hs hlab hl
  · intro u i t hread hnil
    by_cases hu : u = k.currentThread
    · subst hu
      have := hcall i t (by rw [← hnew, hread])
      simp [hnil] at this
    · rw [hold u hu] at hread
      rcases hother u hu with heq | ⟨heq, -⟩
      · rw [heq] at hnil
        exact absurd (h.read u i t hread hnil).1 hu
      · simp [heq] at hnil

/-- A part of a kernel routine. -/
theorem Prompt.of_quiet (h : Prompt k)
    (hr : Runs client .run (start maxProcess joinValue) initialValue k)
    (hs : step client k lab = .ok k') (hlab : Unhurried k lab) (hst : k.stack k.currentThread ≠ [])
    (hq : Quiet k k') : Prompt k' := by
  have hp := hr.placed
  obtain ⟨f, rest, hfs⟩ := List.exists_cons_of_ne_nil hst
  obtain ⟨new, hn, hown⟩ := next_of_top hp hs hfs
  have hother : ∀ u, u ≠ k.currentThread → k'.stack u = k.stack u := by
    intro u hu
    rcases step_stack_cases hp.current_lt hs u with heq | ⟨rfl, -⟩ | ⟨hlt, hlt', -⟩
    · exact heq
    · exact absurd rfl hu
    · rw [hq.numThreads] at hlt'
      exact absurd hlt' (not_lt.2 hlt)
  refine ⟨?_, ?_, ?_, ?_, ?_⟩
  · intro t u u' hu hu'
    exact h.once t u u' (mem_log_of_frame hr.inner hs hst (.inl ⟨u, t, rfl⟩) hu)
      (mem_log_of_frame hr.inner hs hst (.inl ⟨u', t, rfl⟩) hu')
  · intro u t hmem
    rw [hq.pc]
    refine h.inJoin u t ?_
    by_cases hu : u = k.currentThread
    · subst hu
      rw [hown] at hmem
      rcases List.mem_append.1 hmem with hmem | hmem
      · have := hr.inner k.currentThread (.join t) (by simp [hfs, joinReturn_mem hn hmem])
        cases this
      · simp [hfs, hmem]
    · rwa [hother u hu] at hmem
  · intro u i t hread
    rw [hq.pc] at hread
    by_cases hu : u = k.currentThread
    · subst hu
      have hmem := (h.inside _ i t hread).resolve_left hst
      rw [hown]
      rw [hfs] at hmem
      rcases List.mem_cons.1 hmem with rfl | hmem
      · -- `Join` returns
        obtain ⟨jp, fp, hh⟩ := h.handshake hr hread
        have hjoin := hh.join
        rw [hfs] at hjoin
        cases hjoin.of_joinReturn
        cases hn
        exact .inl rfl
      · exact .inr (by simp [hmem])
    · rw [hother u hu]
      exact h.inside u i t hread
  · exact fun u t hl => Leaves.of_step h hr hs hlab hl
  · intro u i t hread hnil
    rw [hq.pc] at hread
    by_cases hu : u = k.currentThread
    · subst hu
      have hmem := (h.inside _ i t hread).resolve_left hst
      rw [hown] at hnil
      obtain ⟨rfl, rfl⟩ := List.append_eq_nil_iff.1 hnil
      rw [hfs] at hmem
      obtain rfl := List.mem_singleton.1 hmem
      obtain ⟨-, hdel, hc⟩ := h.leaves k.currentThread t
        ⟨by simp [hfs], by simp [hfs], by simp [hfs]⟩
      obtain ⟨hcur, hdel', -⟩ := hc.step hp hs rfl hlab
      exact ⟨hcur.symm, by rw [hdel', hdel]⟩
    · rw [hother u hu] at hnil
      exact absurd (h.read u i t hread hnil).1 hu

/-- In a run in which no time slice ends in the last `Release` of `Join` and no `Thread` is joined
twice, `Join2` reads every exit status before the `Thread` is deleted. -/
theorem status_read_in_time (maxProcess : ℕ) (joinValue : Tid → ℤ) (initialValue : ℕ → ℤ)
    (labs : List (Label Act)) (k : Kernel Pc Data)
    (hmeets : Meets (step client) Unhurried
      (init .run (start maxProcess joinValue) initialValue) labs)
    (hrun : runFrom (step client) (init .run (start maxProcess joinValue) initialValue) labs =
      .ok k) : ReadsInTime k := by
  have hinv := invariant_of_meets (P := Unhurried)
    (I := fun k => Runs client .run (start maxProcess joinValue) initialValue k ∧ Prompt k)
    ?_ ⟨Reachable.refl _ _, ?_⟩ hmeets hrun
  · exact fun i t hpc hst => (hinv.2.read _ i t hpc hst).2
  · rintro k lab k' ⟨hr, h⟩ hlab hs
    refine ⟨hr.tail hs, ?_⟩
    rcases step_turn (orderly_of_runs hr).fresh hr.placed hr.inner hs with
      ⟨a, o, pc, rfl, hst, hturn, -, he, hpc⟩ | ⟨hne, hq⟩
    · exact h.of_turn hr hs hlab hst hturn he hpc
    · exact h.of_quiet hr hs hlab hne hq
  · exact ⟨by simp [Kernel.init], by simp [Kernel.init], by simp [Kernel.init],
      by simp [Leaves, Kernel.init], by simp [Kernel.init]⟩

end

/-- The condition `Unhurried` for runs with one Join, as a test. -/
def unhurriedTest (k : Kernel Pc Data) : Label Act → Bool
  | .timer =>
      match k.stack k.currentThread with
      | [.firing, .joinReturn _] => false
      | _ => true
  | .act _ =>
      match k.pc k.currentThread with
      | .joinTest _ (some t) => t = 1 && k.log.all fun e => (joinerOf e).isNone
      | _ => true
  | _ => true

theorem unhurried_of_test {lab : Label Act} (h : unhurriedTest k lab = true) : Unhurried k lab := by
  cases lab with
  | timer =>
      intro t hst
      simp [unhurriedTest, hst] at h
  | act a =>
      intro i t hpc u hu
      simp only [unhurriedTest, hpc, Bool.and_eq_true, decide_eq_true_eq, List.all_eq_true] at h
      obtain ⟨rfl, h⟩ := h
      simpa [joinerOf] using h _ hu
  | _ => trivial

theorem status_read_in_time_1128 :
    ∃ labs k, Meets (step client) Unhurried (init .run (start 14 fun _ => 0) fun _ => 0) labs ∧
      runFrom (step client) (init .run (start 14 fun _ => 0) fun _ => 0) labs = .ok k ∧
        k.pc k.currentThread = .joinRead 2 1 ∧ k.stack k.currentThread = [] ∧ ReadsInTime k := by
  have hpass : passesMeeting (step client) unhurriedTest
      (fun k => (k.stack k.currentThread).isEmpty && k.pc k.currentThread = .joinRead 2 1)
        (init .run (start 14 fun _ => 0) fun _ => 0) joinThenExit.dropLast = true := by
    decide +kernel
  obtain ⟨hmeets, k, hrun, hend⟩ := of_passesMeeting hpass
  rw [Bool.and_eq_true, List.isEmpty_iff, decide_eq_true_iff] at hend
  replace hmeets := hmeets.imp (Q := Unhurried) fun _ _ => unhurried_of_test
  exact ⟨_, k, hmeets, hrun, hend.2, hend.1, status_read_in_time 14 _ _ _ k hmeets hrun⟩

/-- The same, with a time slice that ends in the last `Release` of `Join`: the other process
finishes and is deleted before `Join` returns. -/
def joinThenSwitch : List (Label Act) :=
  execChild ++ Label.act (Act.join 2) :: List.replicate 4 Label.go ++ proceed 3 ++ proceed 15 ++
    Label.act (Act.exit 1128) :: List.replicate 4 Label.go ++
      (List.replicate 50 (proceed 3 ++ proceed 4)).flatten ++ proceed 3 ++ proceed 25 ++
        Label.timer :: List.replicate 17 Label.go

theorem status_read_after_delete :
    ∃ k, Runs client .run (start 14 fun _ => 0) (fun _ => 0) k ∧ ¬ ReadsInTime k := by
  have hpass : passes (step client) (init .run (start 14 fun _ => 0) fun _ => 0) joinThenSwitch
      (fun k => ((k.stack k.currentThread).isEmpty && k.pc k.currentThread = .joinRead 2 1) &&
        k.deleted 1) = true := by
    decide +kernel
  obtain ⟨k, hk, hend⟩ := exists_of_passes _ hpass
  rw [Bool.and_eq_true, Bool.and_eq_true, List.isEmpty_iff, decide_eq_true_iff] at hend
  obtain ⟨⟨hst, hpc⟩, hdel⟩ := hend
  refine ⟨k, hk, ?_⟩
  intro h
  simp [h 2 1 hpc hst] at hdel

end Processes

end Nachos
