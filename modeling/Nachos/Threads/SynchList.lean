import Nachos.Threads.ItemList
import Nachos.Threads.Monitor

/-!
# Synchronized lists

`SynchList::Append` and `SynchList::Remove` as a program over the kernel: any number of threads call
them on one list in any order, and between these calls they may do anything that does not touch
its lock and its condition. `appended` and `removed` are the items that have gone through
`List::Append` and `List::Remove`, in the order of these calls.

`Append` wakes one remover, which finds the list empty again if another one has been faster. So
the removers that have been woken and have not looked at the list yet are as many as there are
items, as long as somebody sleeps.
-/

namespace Nachos

open Lib

namespace SynchList

/-- Where a thread is in the code of the list. -/
inductive Pc (ι : Type) where
  | out
  /-- `Append` after its `Acquire`. -/
  | append (item : ι)
  /-- `Append` after its `Signal`. -/
  | appendLeave
  /-- The loop test of `Remove` after its `Acquire`. -/
  | removeTest
  /-- The loop test of `Remove` after a `Wait`. -/
  | removeRetest
  /-- `Remove` after its `Release`, which returns `item`. -/
  | removed (item : Option ι)

structure Data (ι : Type) where
  list : ItemList ι
  appended : List (Option ι)
  removed : List (Option ι)

/-- The constructor of `SynchList`. -/
def Data.new {ι : Type} : Data ι where
  list := .new
  appended := []
  removed := []

def lock : Obj := .user 0
def listEmpty : Obj := .user 0

variable {ι : Type}

/-- The call does not touch the list. -/
def foreign : Call (Pc ι) → Bool
  | .acquire l => l ≠ lock
  | .release l => l ≠ lock
  | .wait c l => c ≠ listEmpty ∧ l ≠ lock
  | .signal c _ => c ≠ listEmpty
  | .broadcast c _ => c ≠ listEmpty
  | .fork _ _ .out => true
  | .fork _ _ _ => false
  | _ => true

/-- What a thread outside the list does next, and what a handler does. The items are not `NULL`. -/
inductive Act (ι : Type) where
  | append (item : ι)
  | remove
  | other (o : Call (Pc ι))
  | handle (sems : List ℕ)

namespace Data

/-- What a thread outside the list does next. -/
def outside (d : Data ι) : Act ι → Except Stop (Call (Pc ι) × Pc ι × Data ι)
  | .append item => .ok (.acquire lock, .append item, d)
  | .remove => .ok (.acquire lock, .removeTest, d)
  | .other o => if foreign o then .ok (o, .out, d) else .error .disabled
  | .handle _ => .error .disabled

/-- `list->Append(item)`. -/
def put (d : Data ι) (item : ι) : Data ι :=
  { d with list := d.list.append (some item), appended := d.appended ++ [some item] }

/-- `item = list->Remove()`. -/
def take (d : Data ι) : Data ι :=
  { d with list := d.list.remove.2, removed := d.removed ++ [d.list.remove.1] }

/-- `SynchList::Remove` from its loop test on. -/
def removeLoop (d : Data ι) : Except Stop (Call (Pc ι) × Pc ι × Data ι) :=
  if d.list.isEmpty then
    .ok (.wait listEmpty lock, .removeRetest, d)
  else
    assertThen (d.list.remove.1.isSome = true) <|
      .ok (.release lock, .removed d.list.remove.1, d.take)

end Data

/-- The own code of a thread up to its next call. -/
def code (pc : Pc ι) (d : Data ι) (a : Act ι) : Except Stop (Call (Pc ι) × Pc ι × Data ι) :=
  match pc with
  | .out => d.outside a
  | .append item => .ok (.signal listEmpty lock, .appendLeave, d.put item)
  | .appendLeave => .ok (.release lock, .out, d)
  | .removeTest => d.removeLoop
  | .removeRetest => d.removeLoop
  | .removed _ => d.outside a

/-- The program of the threads that use the list. -/
def client (ι : Type) : Client (Pc ι) (Data ι) (Act ι) where
  next _ pc d _ a := (code pc d a).toOption
  handler a d :=
    match a with
    | .handle sems => some (sems, d)
    | _ => none

/-! ## Moves -/

/-- The thread is not in the code of the list. -/
def Pc.isOut : Pc ι → Bool
  | .out => true
  | .removed _ => true
  | _ => false

/-- The thread is at a loop test of `Remove`. -/
def Pc.isTest : Pc ι → Bool
  | .removeTest => true
  | .removeRetest => true
  | _ => false

/-- What the own code of a thread does up to its next call. -/
inductive Move (d : Data ι) : Pc ι → Call (Pc ι) → Pc ι → Data ι → Prop
  | append (pc : Pc ι) (hpc : pc.isOut = true) (item : ι) :
      Move d pc (.acquire lock) (.append item) d
  | remove (pc : Pc ι) (hpc : pc.isOut = true) : Move d pc (.acquire lock) .removeTest d
  | other (pc : Pc ι) (hpc : pc.isOut = true) (o : Call (Pc ι)) (h : foreign o = true) :
      Move d pc o .out d
  | put (item : ι) : Move d (.append item) (.signal listEmpty lock) .appendLeave (d.put item)
  | appendLeave : Move d .appendLeave (.release lock) .out d
  | sleep (pc : Pc ι) (hpc : pc.isTest = true) (h : d.list.isEmpty = true) :
      Move d pc (.wait listEmpty lock) .removeRetest d
  | take (pc : Pc ι) (hpc : pc.isTest = true) (h : d.list.isEmpty = false)
      (hsome : d.list.remove.1.isSome = true) :
      Move d pc (.release lock) (.removed d.list.remove.1) d.take

variable {pc pc' : Pc ι} {d d' : Data ι} {a : Act ι} {o : Call (Pc ι)}

theorem move_of_outside (hpc : pc.isOut = true) (h : d.outside a = .ok (o, pc', d')) :
    Move d pc o pc' d' := by
  cases a with
  | append item =>
      cases h
      exact .append pc hpc item
  | remove =>
      cases h
      exact .remove pc hpc
  | other o' =>
      simp only [Data.outside] at h
      split at h
      · cases h
        exact .other pc hpc _ ‹_›
      · cases h
  | handle sems => cases h

theorem move_of_removeLoop (hpc : pc.isTest = true) (h : d.removeLoop = .ok (o, pc', d')) :
    Move d pc o pc' d' := by
  simp only [Data.removeLoop] at h
  split at h
  · cases h
    exact .sleep pc hpc ‹_›
  · rename_i hfull
    simp only [assertThen_ok, Except.ok.injEq, Prod.mk.injEq] at h
    obtain ⟨hsome, rfl, rfl, rfl⟩ := h
    exact .take pc hpc (by simpa using hfull) hsome

theorem move_of_code (h : code pc d a = .ok (o, pc', d')) : Move d pc o pc' d' := by
  cases pc with
  | out => exact move_of_outside rfl h
  | append item =>
      cases h
      exact .put item
  | appendLeave =>
      cases h
      exact .appendLeave
  | removeTest => exact move_of_removeLoop rfl h
  | removeRetest => exact move_of_removeLoop rfl h
  | removed item => exact move_of_outside rfl h

theorem move_of_next {t : Tid} {view : View}
    (h : (client ι).next t pc d view a = some (o, pc', d')) :
    Move d pc o pc' d' := by
  refine move_of_code (a := a) ?_
  simp only [client] at h
  cases hcode : code pc d a with
  | error e => simp [hcode, Except.toOption] at h
  | ok r =>
      simp only [hcode, Except.toOption, Option.some.injEq] at h
      rw [h]

theorem steady : (client ι).Steady .out where
  fork := by
    intro t pc d view a c join start pc' d' h
    generalize ho : Call.fork c join start = o at h
    cases move_of_next h with
    | other pc hpc o hforeign =>
        subst ho
        cases start with
        | out => rfl
        | _ => cases hforeign
    | _ => cases ho
  handler := by
    intro a d sems d' h
    cases a with
    | handle sems' =>
        cases h
        rfl
    | _ => cases h

theorem about_of_foreign (h : foreign o = true) : o.about ≠ some (.condition listEmpty) := by
  cases o with
  | wait c l =>
      simp only [foreign, decide_eq_true_eq] at h
      simp [Call.about, h.1]
  | signal c l =>
      simp only [foreign, decide_eq_true_eq] at h
      simp [Call.about, h]
  | broadcast c l =>
      simp only [foreign, decide_eq_true_eq] at h
      simp [Call.about, h]
  | _ => simp [Call.about]

/-! ## First in, first out -/

/-- What has been appended has been removed or is on the list, and is not `NULL`. -/
structure Data.Sound (d : Data ι) : Prop where
  fifo : ∃ xs, d.list.Holds xs ∧ d.removed ++ xs = d.appended
  items : ∀ item ∈ d.appended, item.isSome = true

namespace Data.Sound

theorem new : (Data.new : Data ι).Sound := ⟨⟨[], ItemList.holds_new, rfl⟩, by simp [Data.new]⟩

theorem put (h : d.Sound) (item : ι) : (d.put item).Sound := by
  obtain ⟨xs, hxs, hfifo⟩ := h.fifo
  refine ⟨⟨xs ++ [some item], hxs.append (some item), ?_⟩, ?_⟩
  · simp only [Data.put]
    rw [← hfifo, List.append_assoc]
  · intro x hx
    simp only [Data.put, List.mem_append, List.mem_singleton] at hx
    rcases hx with hx | rfl
    · exact h.items x hx
    · rfl

/-- `Remove` finds an item on a list that is not empty. -/
theorem front (h : d.Sound) (hfull : d.list.isEmpty = false) :
    ∃ x xs, d.list.Holds (x :: xs) ∧ d.removed ++ x :: xs = d.appended ∧ x.isSome = true := by
  obtain ⟨xs, hxs, hfifo⟩ := h.fifo
  cases xs with
  | nil =>
      rw [hxs.isEmpty_iff.2 rfl] at hfull
      cases hfull
  | cons x xs => exact ⟨x, xs, hxs, hfifo, h.items x (by rw [← hfifo]; simp)⟩

theorem take (h : d.Sound) (hfull : d.list.isEmpty = false) : d.take.Sound := by
  obtain ⟨x, xs, hxs, hfifo, -⟩ := h.front hfull
  obtain ⟨hx, hrest⟩ := hxs.remove
  refine ⟨⟨xs, hrest, ?_⟩, h.items⟩
  simp only [Data.take]
  rw [hx, ← hfifo]
  simp

theorem move (h : d.Sound) (hmove : Move d pc o pc' d') : d'.Sound := by
  cases hmove with
  | put item => exact h.put item
  | take pc hpc hfull hsome => exact h.take hfull
  | _ => exact h

theorem no_assertion (h : d.Sound) (pc : Pc ι) (a : Act ι) : code pc d a ≠ .error .assertion := by
  have houtside : d.outside a ≠ .error .assertion := by
    cases a with
    | other o =>
        simp only [Data.outside]
        split <;> simp
    | _ => simp [Data.outside]
  have hloop : d.removeLoop ≠ .error .assertion := by
    simp only [Data.removeLoop]
    split
    · simp
    · rename_i hfull
      obtain ⟨x, xs, hxs, -, hsome⟩ := h.front (by simpa using hfull)
      simp [assertThen, hxs.remove.1, hsome]
  cases pc with
  | out => exact houtside
  | removeTest => exact hloop
  | removeRetest => exact hloop
  | removed item => exact houtside
  | _ => simp [code]

end Data.Sound

/-! ## Nobody is left behind -/

/-- The number of removers that have been woken and have not looked at the list again. -/
noncomputable def woken (s : Monitor (Pc ι) (Data ι)) : ℕ := s.up 0 (· = .removeRetest)

structure Watched (s : Monitor (Pc ι) (Data ι)) : Prop where
  sound : s.data.Sound
  sleepers : ∀ t ∈ s.asleep 0, s.pc t = .removeRetest
  watched : (s.asleep 0).Nonempty → s.data.list.items.length ≤ woken s

open Kernel

theorem Watched.init (initialValue : ℕ → ℤ) :
    Watched (Kernel.init (Pc.out : Pc ι) Data.new initialValue).monitor := by
  refine ⟨.new, ?_, ?_⟩
  · simp [monitor, SleepsOn, Kernel.init]
  · rintro ⟨t, ht⟩
    simp [monitor, SleepsOn, Kernel.init] at ht

theorem Data.Sound.length_put (h : d.Sound) (item : ι) :
    (d.put item).list.items.length = d.list.items.length + 1 := by
  obtain ⟨xs, hxs, -⟩ := h.fifo
  rw [Data.put, (hxs.append (some item)).items_eq, hxs.items_eq, List.length_append]
  rfl

theorem Data.Sound.length_take (h : d.Sound) (hfull : d.list.isEmpty = false) :
    d.take.list.items.length + 1 = d.list.items.length := by
  obtain ⟨x, xs, hxs, -⟩ := h.front hfull
  rw [Data.take, hxs.remove.2.items_eq, hxs.items_eq, List.length_cons]

theorem Data.Sound.length_empty (h : d.Sound) (hempty : d.list.isEmpty = true) :
    d.list.items.length = 0 := by
  obtain ⟨xs, hxs, -⟩ := h.fifo
  rw [hxs.items_eq, hxs.isEmpty_iff.1 hempty, List.length_nil]

variable {s s' : Monitor (Pc ι) (Data ι)} {t : Tid}

/-- Every item that comes to the list wakes a remover, and a remover that looks at the list takes
one or finds none. -/
theorem Watched.turn (h : Watched s) (hfresh : s.Fresh .out)
    (hturn : s.Turn (client ι) t a o pc s') :
    Watched s' := by
  obtain ⟨view, hnext⟩ := hturn.next
  have hmove := move_of_next hnext
  have hsound := h.sound.move hmove
  have hrouse := hturn.rouses
  generalize hpc₀ : s.pc t = pc₀ at hmove
  generalize hd : s'.data = d at hmove
  refine ⟨hsound, ?_, ?_⟩
  · intro u hu
    rcases hrouse.mem hu with hold | ⟨rfl, l, rfl⟩
    · rw [hturn.pc_of_asleep hold]
      exact h.sleepers u hold
    · rw [hturn.pc_self]
      cases hmove with
      | other pc hpc o hforeign => simp [foreign, listEmpty] at hforeign
      | sleep pc hpc hempty => rfl
  · intro hsome
    -- a move that is not about the condition and leaves the list alone
    have hkeep : o.about ≠ some (.condition (.user 0)) → s.pc t ≠ .removeRetest →
        s'.data.list = s.data.list → s'.data.list.items.length ≤ woken s' := by
      intro ho hpc hlist
      rw [hrouse.eq_of_other ho] at hsome
      rw [hlist]
      exact (h.watched hsome).trans (hturn.up_le hpc)
    have hout : ∀ {pc : Pc ι}, pc.isOut = true → s.pc t = pc → s.pc t ≠ .removeRetest := by
      rintro pc hpc rfl heq
      rw [heq] at hpc
      cases hpc
    cases hmove with
    | append pc hpc item => exact hkeep (by simp [Call.about]) (hout hpc hpc₀) (by rw [hd])
    | remove pc hpc => exact hkeep (by simp [Call.about]) (hout hpc hpc₀) (by rw [hd])
    | other pc hpc o ho => exact hkeep (about_of_foreign ho) (hout hpc hpc₀) (by rw [hd])
    | appendLeave => exact hkeep (by simp [Call.about]) (by simp [hpc₀]) (by rw [hd])
    | put item =>
        rw [hd, h.sound.length_put]
        generalize hasleep : s'.asleep = asleep' at hrouse
        cases hrouse with
        | signalNobody c l hnone =>
            rw [hasleep, hnone] at hsome
            exact absurd hsome Set.not_nonempty_empty
        | signal c l u hu =>
            have hlt : u < s.numThreads := by
              by_contra hlt
              have hpc := h.sleepers u hu
              rw [hfresh u (not_lt.1 hlt)] at hpc
              cases hpc
            have hgain := hturn.succ_up_le (c := 0) (P := (· = .removeRetest)) (by simp [hpc₀]) hlt
              (h.sleepers u hu) hu (by simp [hasleep])
            exact (Nat.succ_le_succ (h.watched ⟨u, hu⟩)).trans hgain
        | other o ho => exact absurd rfl (ho 0)
    | sleep pc hpc hempty =>
        rw [hd, h.sound.length_empty hempty]
        exact Nat.zero_le _
    | take pc hpc hfull hitem =>
        rw [hrouse.eq_of_other (by simp [Call.about])] at hsome
        have hbound := h.watched hsome
        have hloss : woken s ≤ woken s' + 1 := hturn.up_le_succ
        have hlength := h.sound.length_take hfull
        rw [hd]
        omega

/-- The removers that have been signalled and have not tested the list again. -/
noncomputable def signalled (k : Kernel (Pc ι) (Data ι)) : Finset Tid :=
  (Finset.range k.numThreads).filter (k.monitor.Up 0 (· = .removeRetest))

/-- For any number of threads: what has been removed, followed by what is on the list, is what has
been appended; `Remove` never gets `NULL` from the list; and while a remover sleeps, there are no
more items than removers that have been signalled and have not tested the list again. -/
theorem synchList_exactly_once (initialValue : ℕ → ℤ) (k : Kernel (Pc ι) (Data ι))
    (h : Runs (client ι) .out Data.new initialValue k) :
    k.data.removed ++ k.data.list.items = k.data.appended ∧
      (∀ t a, code (k.pc t) k.data a ≠ .error .assertion) ∧
        ((∃ t, k.SleepsOn 0 t) → k.data.list.items.length ≤ (signalled k).card) := by
  have hk : Watched k.monitor := by
    refine h.monitor_invariant (I := Watched) steady (.init initialValue) ?_
    intro s s' t a o pc hfresh hs hturn
    exact hs.turn hfresh hturn
  refine ⟨?_, fun t a => hk.sound.no_assertion _ a, ?_⟩
  · obtain ⟨xs, hxs, hfifo⟩ := hk.sound.fifo
    have hitems : k.data.list.items = xs := hxs.items_eq
    rw [hitems]
    exact hfifo
  · rintro ⟨t, ht⟩
    have hbound : k.data.list.items.length ≤ woken k.monitor := hk.watched ⟨t, ht⟩
    rwa [woken, Monitor.up, Nat.count_eq_card_filter_range] at hbound

/-- Two threads sleep in `Remove`, and the main thread appends 5. -/
theorem synchList_exactly_once_five :
    ∃ k : Kernel (Pc ℕ) (Data ℕ), Runs (client ℕ) .out Data.new (fun _ => 0) k ∧
      (∃ t, k.SleepsOn 0 t) ∧ k.data.list.items = [some 5] ∧ 1 ≤ (signalled k).card := by
  have hpass : passes (step (client ℕ)) (init .out Data.new fun _ => 0)
      (turns [(.other (.fork 1 0 .out), 3), (.other (.fork 2 0 .out), 3), (.other .yield, 3),
        (.remove, 4), (.remove, 7), (.remove, 4), (.remove, 8), (.append 5, 4), (.remove, 0)])
      (fun k => 2 ∈ (k.queue (.condition listEmpty)).map Keyed.item &&
        k.data.list.items = [some 5]) = true := by
    decide +kernel
  obtain ⟨k, hk, hend⟩ := exists_of_passes _ hpass
  rw [Bool.and_eq_true, decide_eq_true_eq, decide_eq_true_eq] at hend
  have hasleep : ∃ t, k.SleepsOn 0 t := ⟨2, .inl hend.1⟩
  refine ⟨k, hk, hasleep, hend.2, ?_⟩
  simpa [hend.2] using (synchList_exactly_once _ k hk).2.2 hasleep

end SynchList

end Nachos
