import Nachos.Lib.Count
import Nachos.Threads.Monitor
import Mathlib.Data.Fintype.Basic

/-!
# Whales

`Whale::Male`, `Female` and `Matchmaker` as a program over the kernel. The three routines
are one, with the kind of the call as a parameter: it adds one to its count, signals the
two other kinds, sleeps while a count of these is zero and nobody of its own kind has been
matched, and marks its kind as matched. The last of the three to be matched resets the
whale.

`called`, `passed` and `matched` are history variables: the calls that have been made, those
that have left their loop, and the calls of `resetAll`.
-/

namespace Nachos

open Lib



namespace Whale

inductive Kind where
  | male
  | female
  | matchmaker
  deriving DecidableEq

instance : Fintype Kind where
  elems := {.male, .female, .matchmaker}
  complete κ := by cases κ <;> simp

/-- The kinds that a call signals when it starts, in this order. -/
def Kind.first : Kind → Kind
  | .male => .female
  | .female => .male
  | .matchmaker => .male

def Kind.second : Kind → Kind
  | .male => .matchmaker
  | .female => .matchmaker
  | .matchmaker => .female

/-- Where a thread is in the code of the whale. -/
inductive Pc where
  | out
  /-- After its `Acquire`. -/
  | entering (κ : Kind)
  /-- After its first `Signal`. -/
  | signalled (κ : Kind)
  /-- The loop test. -/
  | test (κ : Kind)
  /-- `resetAll` before its second `Signal`. -/
  | resetFemale (κ : Kind)
  /-- `resetAll` before its third `Signal`. -/
  | resetMatchmaker (κ : Kind)
  /-- After `resetAll`. -/
  | unlock (κ : Kind)
  /-- It has called `Release`. -/
  | leaving (κ : Kind)
  deriving DecidableEq

structure Data where
  count : Kind → ℤ
  found : Kind → ℤ
  called : Kind → ℕ
  passed : Kind → ℕ
  matched : ℕ

/-- The constructor of `Whale`. -/
def Data.new : Data where
  count _ := 0
  found _ := 0
  called _ := 0
  passed _ := 0
  matched := 0

def lock : Obj := .user 0

/-- The number of the condition `maleWhale`, `femaleWhale` or `matchmaker`. -/
def Kind.cv : Kind → ℕ
  | .male => 0
  | .female => 1
  | .matchmaker => 2

/-- The call does not touch the whale. -/
def foreign : Call Pc → Bool
  | .acquire l => l ≠ lock
  | .release l => l ≠ lock
  | .wait c l => (∀ κ : Kind, c ≠ .user κ.cv) ∧ l ≠ lock
  | .signal c _ => ∀ κ : Kind, c ≠ .user κ.cv
  | .broadcast c _ => ∀ κ : Kind, c ≠ .user κ.cv
  | .fork _ _ start => start = .out
  | _ => true

/-- What a thread outside the whale does next, and what a handler does. -/
inductive Act where
  | Male
  | Female
  | Matchmaker
  | other (o : Call Pc)
  | handle (sems : List ℕ)

def Data.resetAll (d : Data) : Data :=
  { d with
    count := fun κ => d.count κ - 1
    found := fun _ => 0
    matched := d.matched + 1 }

def call (κ : Kind) (d : Data) : Call Pc × Pc × Data :=
  (.acquire lock, .entering κ, { d with called := Function.update d.called κ (d.called κ + 1) })

/-- A call that has left its loop. -/
def Data.pass (d : Data) (κ : Kind) : Data :=
  { d with
    found := Function.update d.found κ 1
    passed := Function.update d.passed κ (d.passed κ + 1) }

/-- The loop and what follows it. -/
def loop (κ : Kind) (d : Data) : Call Pc × Pc × Data :=
  if (d.count κ.second < 1 ∨ d.count κ.first < 1) ∧ d.found κ = 0 then
    (.wait (.user κ.cv) lock, .test κ, d)
  else if ∀ κ' : Kind, (d.pass κ).found κ' ≠ 0 then
    (.signal (.user Kind.male.cv) lock, .resetFemale κ, (d.pass κ).resetAll)
  else
    (.release lock, .leaving κ, d.pass κ)

def outside (d : Data) : Act → Option (Call Pc × Pc × Data)
  | .Male => some (call .male d)
  | .Female => some (call .female d)
  | .Matchmaker => some (call .matchmaker d)
  | .other o => if foreign o then some (o, .out, d) else none
  | .handle _ => none

def next (pc : Pc) (d : Data) (a : Act) : Option (Call Pc × Pc × Data) :=
  match pc with
  | .out => outside d a
  | .entering κ =>
      some (.signal (.user κ.first.cv) lock, .signalled κ,
        { d with count := Function.update d.count κ (d.count κ + 1) })
  | .signalled κ => some (.signal (.user κ.second.cv) lock, .test κ, d)
  | .test κ => some (loop κ d)
  | .resetFemale κ => some (.signal (.user Kind.female.cv) lock, .resetMatchmaker κ, d)
  | .resetMatchmaker κ => some (.signal (.user Kind.matchmaker.cv) lock, .unlock κ, d)
  | .unlock κ => some (.release lock, .leaving κ, d)
  | .leaving _ => outside d a

/-- The program of the threads that use the whale. -/
def client : Client Pc Data Act where
  next _ pc d _ a := next pc d a
  handler a d :=
    match a with
    | .handle sems => some (sems, d)
    | _ => none

/-- The calls that are in their loop. -/
def waiting (k : Kernel Pc Data) (κ : Kind) : Finset Tid :=
  (Finset.range k.numThreads).filter fun t => k.pc t = .test κ

/-- The calls that have left their loop and not returned. -/
def leaving (k : Kernel Pc Data) (κ : Kind) : Finset Tid :=
  (Finset.range k.numThreads).filter fun t =>
    k.pc t = .resetFemale κ ∨ k.pc t = .resetMatchmaker κ ∨ k.pc t = .unlock κ ∨
      k.pc t = .leaving κ ∧ k.stack t ≠ []

def returned (k : Kernel Pc Data) (κ : Kind) : ℕ := k.data.passed κ - (leaving k κ).card

open Kernel

theorem Kind.cv_injective : Function.Injective Kind.cv := by
  intro κ κ' h
  cases κ <;> cases κ' <;> first | rfl | cases h

theorem Kind.first_ne (κ : Kind) : κ.first ≠ κ := by cases κ <;> decide

theorem Kind.second_ne (κ : Kind) : κ.second ≠ κ := by cases κ <;> decide

/-- The thread is not in a call. -/
def Pc.isOut : Pc → Bool
  | .out => true
  | .leaving _ => true
  | _ => false

/-- The kind of a call that is counted and has not left its loop. -/
def Pc.counted : Pc → Option Kind
  | .signalled κ => some κ
  | .test κ => some κ
  | _ => none

/-- The own code of a thread up to its next call. -/
inductive Move (d : Data) : Pc → Call Pc → Pc → Data → Prop
  | call (pc : Pc) (κ : Kind) (h : pc.isOut = true) :
      Move d pc (.acquire lock) (.entering κ)
        { d with called := Function.update d.called κ (d.called κ + 1) }
  | other (pc : Pc) (o : Call Pc) (h : pc.isOut = true) (ho : foreign o = true) : Move d pc o .out d
  | enter (κ : Kind) :
      Move d (.entering κ) (.signal (.user κ.first.cv) lock) (.signalled κ)
        { d with count := Function.update d.count κ (d.count κ + 1) }
  | signalled (κ : Kind) :
      Move d (.signalled κ) (.signal (.user κ.second.cv) lock) (.test κ) d
  | sleep (κ : Kind) (h : (d.count κ.second < 1 ∨ d.count κ.first < 1) ∧ d.found κ = 0) :
      Move d (.test κ) (.wait (.user κ.cv) lock) (.test κ) d
  | reset (κ : Kind) (h : d.found κ = 0 → 1 ≤ d.count κ.second ∧ 1 ≤ d.count κ.first)
      (hall : ∀ κ', κ' ≠ κ → d.found κ' ≠ 0) :
      Move d (.test κ) (.signal (.user Kind.male.cv) lock) (.resetFemale κ) (d.pass κ).resetAll
  | pass (κ : Kind) (h : d.found κ = 0 → 1 ≤ d.count κ.second ∧ 1 ≤ d.count κ.first) :
      Move d (.test κ) (.release lock) (.leaving κ) (d.pass κ)
  | resetFemale (κ : Kind) :
      Move d (.resetFemale κ) (.signal (.user Kind.female.cv) lock) (.resetMatchmaker κ) d
  | resetMatchmaker (κ : Kind) :
      Move d (.resetMatchmaker κ) (.signal (.user Kind.matchmaker.cv) lock) (.unlock κ) d
  | unlock (κ : Kind) : Move d (.unlock κ) (.release lock) (.leaving κ) d

theorem move_of_outside {pc pc' : Pc} {d d' : Data} {a : Act} {o : Call Pc} (hpc : pc.isOut = true)
    (h : outside d a = some (o, pc', d')) : Move d pc o pc' d' := by
  cases a with
  | Male =>
      cases h
      exact .call pc .male hpc
  | Female =>
      cases h
      exact .call pc .female hpc
  | Matchmaker =>
      cases h
      exact .call pc .matchmaker hpc
  | other o' =>
      simp only [outside] at h
      split at h
      · cases h
        exact .other pc _ hpc ‹_›
      · cases h
  | handle sems => cases h

theorem move_of_next {pc pc' : Pc} {d d' : Data} {a : Act} {o : Call Pc}
    (h : next pc d a = some (o, pc', d')) : Move d pc o pc' d' := by
  cases pc with
  | out => exact move_of_outside rfl h
  | leaving κ => exact move_of_outside rfl h
  | test κ =>
      simp only [next, loop] at h
      by_cases hsleep : (d.count κ.second < 1 ∨ d.count κ.first < 1) ∧ d.found κ = 0
      · rw [if_pos hsleep] at h
        cases h
        exact .sleep κ hsleep
      · rw [if_neg hsleep] at h
        have hgo : d.found κ = 0 → 1 ≤ d.count κ.second ∧ 1 ≤ d.count κ.first := by
          intro hfound
          by_contra hlt
          exact hsleep ⟨by omega, hfound⟩
        split at h
        · rename_i hall
          cases h
          refine .reset κ hgo ?_
          intro κ' hκ'
          simpa [Data.pass, hκ'] using hall κ'
        · cases h
          exact .pass κ hgo
  | entering κ =>
      cases h
      exact .enter κ
  | signalled κ =>
      cases h
      exact .signalled κ
  | resetFemale κ =>
      cases h
      exact .resetFemale κ
  | resetMatchmaker κ =>
      cases h
      exact .resetMatchmaker κ
  | unlock κ =>
      cases h
      exact .unlock κ

theorem steady : client.Steady .out where
  fork := by
    intro t pc d view a c join start pc' d' h
    have hmove := move_of_next h
    cases hmove with
    | other pc o hpc ho => simpa [foreign] using ho
  handler := by
    intro a d sems d' h
    cases a <;> simp [client] at h
    exact h.2.symm

/-- The number of calls that are counted and have not left their loop. -/
def inLoop (s : Monitor Pc Data) (κ : Kind) : ℕ :=
  Nat.count (fun t => (s.pc t).counted = some κ) s.numThreads

structure Covered (s : Monitor Pc Data) : Prop where
  flag : ∀ κ, s.data.found κ = 0 ∨ s.data.found κ = 1
  covered : ∀ κ, inLoop s κ + s.data.found κ ≤ s.data.count κ
  asleep : ∀ κ : Kind, ∀ t ∈ s.asleep κ.cv, s.pc t = .test κ
  apart : ∃ κ : Kind, s.asleep κ.cv = ∅

theorem Covered.init (initialValue : ℕ → ℤ) :
    Covered (Kernel.init .out Data.new initialValue).monitor := by
  refine ⟨fun κ => .inl rfl, ?_, ?_, .male, ?_⟩
  · intro κ
    have hnone : inLoop (Kernel.init Pc.out Data.new initialValue).monitor κ = 0 := by
      rw [inLoop, Nat.count_iff_forall_not]
      simp [monitor, Kernel.init, Pc.counted]
    rw [hnone]
    exact le_rfl
  · simp [monitor, SleepsOn, Kernel.init]
  · ext t
    simp [monitor, SleepsOn, Kernel.init]

variable {s s' : Monitor Pc Data} {t : Tid} {a : Act} {o : Call Pc} {pc : Pc}

/-- Only a call in its loop sleeps on the condition of its kind. -/
theorem Move.of_wait {d d' : Data} {pc pc' : Pc} {c : Kind} {l : Obj}
    (h : Move d pc (.wait (.user c.cv) l) pc' d') :
    pc' = .test c ∧ d' = d ∧ (d.count c.second < 1 ∨ d.count c.first < 1) := by
  generalize hn : c.cv = n at h
  cases h with
  | other pc o h ho =>
      simp only [foreign, decide_eq_true_eq] at ho
      exact absurd (congrArg Obj.user hn.symm) (ho.1 c)
  | sleep κ h =>
      cases Kind.cv_injective hn
      exact ⟨rfl, rfl, h.1⟩

theorem Move.flag {d d' : Data} {pc pc' : Pc} (h : Move d pc o pc' d')
    (hflag : ∀ κ, d.found κ = 0 ∨ d.found κ = 1) (κ : Kind) :
    d'.found κ = 0 ∨ d'.found κ = 1 := by
  cases h with
  | reset κ' h hall => exact .inl rfl
  | pass κ' h =>
      by_cases hκ : κ = κ'
      · subst hκ
        exact .inr (by simp [Data.pass])
      · simpa [Data.pass, hκ] using hflag κ
  | _ => exact hflag κ

/-- A call that leaves its loop gives up its share of the count to the flag, and `resetAll` takes
one from each count and clears every flag. -/
theorem Move.covered {d d' : Data} {pc pc' : Pc} (h : Move d pc o pc' d')
    (hflag : ∀ κ, d.found κ = 0 ∨ d.found κ = 1) {κ : Kind} {n n' : ℕ}
    (hn : n' + (if pc.counted = some κ then 1 else 0) = n + (if pc'.counted = some κ then 1 else 0))
    (hcov : n + d.found κ ≤ d.count κ) : n' + d'.found κ ≤ d'.count κ := by
  have hκ := hflag κ
  have hkeep : ∀ κ', n' + (if (Pc.test κ').counted = some κ then 1 else 0) =
      n + (if (Pc.test κ').counted = some κ then 1 else 0) → n' + d.found κ ≤ d.count κ := by
    intro κ' hn
    rw [Nat.add_right_cancel hn]
    exact hcov
  cases h with
  | call pc κ' h =>
      simp only [Pc.counted, reduceCtorEq, if_false] at hn
      simp only
      omega
  | other pc o h ho =>
      simp only [Pc.counted, reduceCtorEq, if_false] at hn
      omega
  | signalled κ' => exact hkeep κ' hn
  | sleep κ' h => exact hkeep κ' hn
  | enter κ' =>
      simp only [Pc.counted, reduceCtorEq, if_false, Option.some.injEq] at hn
      by_cases hk : κ' = κ
      · subst hk
        simp only [if_true] at hn
        simp only [Function.update_self]
        omega
      · simp only [hk, if_false] at hn
        simp only [ne_eq, Ne.symm hk, not_false_eq_true, Function.update_of_ne]
        omega
  | reset κ' h hall =>
      simp only [Pc.counted, reduceCtorEq, if_false, Option.some.injEq] at hn
      by_cases hk : κ' = κ
      · subst hk
        simp only [if_true] at hn
        simp only [Data.resetAll, Data.pass]
        omega
      · simp only [hk, if_false] at hn
        have := hall κ (Ne.symm hk)
        simp only [Data.resetAll, Data.pass]
        omega
  | pass κ' h =>
      simp only [Pc.counted, reduceCtorEq, if_false, Option.some.injEq] at hn
      by_cases hk : κ' = κ
      · subst hk
        simp only [if_true] at hn
        simp only [Data.pass, Function.update_self]
        omega
      · simp only [hk, if_false] at hn
        simp only [Data.pass, ne_eq, Ne.symm hk, not_false_eq_true, Function.update_of_ne]
        omega
  | _ =>
      simp only [Pc.counted, reduceCtorEq, if_false] at hn
      omega

/-- A call goes to sleep when nobody of another kind can be asleep. -/
theorem Covered.nobody (h : Covered s) (hfresh : s.Fresh .out) {κ : Kind}
    (hκ : s.data.count κ < 1) :
    s.asleep κ.cv = ∅ := by
  refine Set.eq_empty_of_forall_notMem ?_
  intro t ht
  have hpc := h.asleep κ t ht
  have hlt : t < s.numThreads := by
    by_contra hlt
    simp [hfresh t (not_lt.1 hlt)] at hpc
  have hpos : 0 < inLoop s κ := count_pos hlt (by simp [hpc, Pc.counted])
  have hcov := h.covered κ
  have hflag := h.flag κ
  omega

theorem Covered.turn (h : Covered s) (hfresh : s.Fresh .out) (hturn : s.Turn client t a o pc s') :
    Covered s' := by
  obtain ⟨view, hnext⟩ := hturn.next
  have hmove := move_of_next hnext
  have hrouse := hturn.rouses
  refine ⟨hmove.flag h.flag, ?_, ?_, ?_⟩
  · intro κ
    exact hmove.covered h.flag (hturn.count hfresh (fun pc => pc.counted = some κ)
      (by simp [Pc.counted]))
      (h.covered κ)
  · intro κ u hu
    rcases hrouse.mem hu with hold | ⟨rfl, l, rfl⟩
    · rw [hturn.pc_of_asleep hold]
      exact h.asleep κ u hold
    · rw [hturn.pc_self]
      exact hmove.of_wait.1
  · by_cases hwait : ∃ κ : Kind, ∃ l, o = .wait (.user κ.cv) l
    · obtain ⟨κ, l, rfl⟩ := hwait
      -- the kind that is missing is not the one that goes to sleep
      have hmissing : ∀ κ' : Kind, κ' ≠ κ → s.data.count κ' < 1 → s'.asleep κ'.cv = ∅ := by
        intro κ' hne hlt
        rw [hrouse.eq_of_other, h.nobody hfresh hlt]
        simpa [Call.about] using fun heq => hne (Kind.cv_injective heq.symm)
      rcases hmove.of_wait.2.2 with hlt | hlt
      · exact ⟨κ.second, hmissing _ κ.second_ne hlt⟩
      · exact ⟨κ.first, hmissing _ κ.first_ne hlt⟩
    · obtain ⟨κ, hκ⟩ := h.apart
      refine ⟨κ, Set.eq_empty_of_forall_notMem ?_⟩
      intro u hu
      rcases hrouse.mem hu with hold | ⟨-, l, heq⟩
      · rw [hκ] at hold
        exact hold
      · exact hwait ⟨κ, l, heq⟩

/-- Every count is at least the number of calls of its kind that are in their loop, and never is
a call of each kind asleep. -/
theorem whale_group_awake (initialValue : ℕ → ℤ) (k : Kernel Pc Data)
    (h : Runs client .out Data.new initialValue k) :
    (∀ κ, (waiting k κ).card ≤ k.data.count κ) ∧
      ¬ ∀ κ : Kind, ∃ t, t ∈ (k.queue (.condition (.user κ.cv))).map Keyed.item := by
  have hk : Covered k.monitor := h.monitor_invariant (I := Covered) steady (.init initialValue)
    fun s s' t a o pc hfresh hs hturn => hs.turn hfresh hturn
  constructor
  · intro κ
    have hle : (waiting k κ).card ≤ inLoop k.monitor κ := by
      rw [waiting, ← Nat.count_eq_card_filter_range]
      exact Nat.count_mono_left fun t _ ht => by simp [monitor, ht, Pc.counted]
    have hcov := hk.covered κ
    have hflag := hk.flag κ
    change (inLoop k.monitor κ : ℤ) + k.data.found κ ≤ k.data.count κ at hcov
    change k.data.found κ = 0 ∨ k.data.found κ = 1 at hflag
    omega
  · intro hall
    obtain ⟨κ, hκ⟩ := hk.apart
    obtain ⟨t, ht⟩ := hall κ
    have hmem : t ∈ k.monitor.asleep κ.cv := .inl ht
    rw [hκ] at hmem
    exact hmem

/-- The threads 1 and 2 go to sleep in `Male` and `Female`. -/
def coupleAsleep : List (Label Act) :=
  turns [(.other (.fork 1 0 .out), 3), (.other (.fork 2 0 .out), 3), (.other .yield, 3), (.Male, 4),
    (.Male, 0), (.Male, 0), (.Male, 7), (.Female, 4), (.Female, 0), (.Female, 0), (.Female, 8)]

theorem whale_group_awake_couple :
    ∃ k, Runs client .out Data.new (fun _ => 0) k ∧ (waiting k .male).card = 1 ∧
      (waiting k .female).card = 1 ∧ (∀ κ, (waiting k κ).card ≤ k.data.count κ) ∧
        ¬ ∀ κ : Kind, ∃ t, t ∈ (k.queue (.condition (.user κ.cv))).map Keyed.item := by
  have hpass : passes (step client) (init .out Data.new fun _ => 0) coupleAsleep
      (fun k => (waiting k .male).card = 1 && (waiting k .female).card = 1) = true := by
    decide +kernel
  obtain ⟨k, hk, hend⟩ := exists_of_passes _ hpass
  rw [Bool.and_eq_true, decide_eq_true_eq, decide_eq_true_eq] at hend
  obtain ⟨hcount, hasleep⟩ := whale_group_awake _ k hk
  exact ⟨k, hk, hend.1, hend.2, hcount, hasleep⟩

/-! ## Partners -/

/-- No call comes to its loop test while its kind is marked as matched. -/
def Unmatched (k : Kernel Pc Data) : Label Act → Prop
  | .act _ => ∀ κ, k.pc k.currentThread = .test κ → k.data.found κ = 0
  | _ => True

def entering (s : Monitor Pc Data) (κ : Kind) : ℕ :=
  Nat.count (fun t => s.pc t = .entering κ) s.numThreads

/-- Every call that has left its loop belongs to a group, complete or not, and the groups have
partners among the calls that have been made. -/
structure Grouped (s : Monitor Pc Data) : Prop where
  flag : ∀ κ, s.data.found κ = 0 ∨ s.data.found κ = 1
  counted : ∀ κ, s.data.count κ + s.data.matched + entering s κ ≤ s.data.called κ
  made : ∀ κ κ', κ' ≠ κ → s.data.found κ ≠ 0 → s.data.matched + 1 ≤ s.data.called κ'
  passed : ∀ κ, s.data.passed κ = s.data.matched + s.data.found κ
  enough : ∀ κ, s.data.matched ≤ s.data.called κ

theorem Grouped.init (initialValue : ℕ → ℤ) :
    Grouped (Kernel.init .out Data.new initialValue).monitor := by
  refine ⟨fun κ => .inl rfl, ?_, ?_, fun κ => rfl, fun κ => le_rfl⟩
  · intro κ
    have hnone : entering (Kernel.init Pc.out Data.new initialValue).monitor κ = 0 := by
      rw [entering, Nat.count_iff_forall_not]
      simp [monitor, Kernel.init]
    rw [hnone]
    exact le_rfl
  · intro κ κ' _ h
    exact absurd rfl h

theorem Kind.eq_of_ne {κ κ' : Kind} (h : κ' ≠ κ) : κ' = κ.first ∨ κ' = κ.second := by
  cases κ <;> cases κ' <;> first | exact absurd rfl h | exact .inl rfl | exact .inr rfl

/-- A call that leaves its loop with its kind unmatched finds partners. -/
theorem Grouped.partners (h : Grouped s) {κ κ' : Kind} (hne : κ' ≠ κ)
    (hgo : 1 ≤ s.data.count κ.second ∧ 1 ≤ s.data.count κ.first) :
    s.data.matched + 1 ≤ s.data.called κ' := by
  have hcount : 1 ≤ s.data.count κ' := by
    rcases Kind.eq_of_ne hne with rfl | rfl
    · exact hgo.2
    · exact hgo.1
  have := h.counted κ'
  omega

/-- A count moves with the calls that have not been counted yet. -/
theorem Move.counted {d d' : Data} {pc pc' : Pc} (h : Move d pc o pc' d') {κ : Kind} {n n' : ℕ}
    (hn : n' + (if pc = .entering κ then 1 else 0) = n + (if pc' = .entering κ then 1 else 0))
    (hle : d.count κ + d.matched + n ≤ d.called κ) :
    d'.count κ + d'.matched + n' ≤ d'.called κ := by
  cases h with
  | call pc κ' h =>
      by_cases hk : κ' = κ
      · subst hk
        simp only [if_true] at hn
        simp only [Function.update_self]
        omega
      · simp only [Pc.entering.injEq, hk, if_false] at hn
        simp only [ne_eq, Ne.symm hk, not_false_eq_true, Function.update_of_ne]
        omega
  | enter κ' =>
      by_cases hk : κ' = κ
      · subst hk
        simp only [reduceCtorEq, if_true, if_false] at hn
        simp only [Function.update_self]
        omega
      · simp only [Pc.entering.injEq, hk, reduceCtorEq, if_false] at hn
        simp only [ne_eq, Ne.symm hk, not_false_eq_true, Function.update_of_ne]
        omega
  | other pc o h ho =>
      simp only [reduceCtorEq, if_false] at hn
      omega
  | reset κ' h hall =>
      simp only [reduceCtorEq, if_false] at hn
      simp only [Data.resetAll, Data.pass]
      omega
  | pass κ' h =>
      simp only [reduceCtorEq, if_false] at hn
      simp only [Data.pass]
      omega
  | _ =>
      simp only [reduceCtorEq, if_false] at hn
      omega

theorem Grouped.turn (h : Grouped s) (hfresh : s.Fresh .out) (hturn : s.Turn client t a o pc s')
    (hunmatched : ∀ κ, s.pc t = .test κ → s.data.found κ = 0) : Grouped s' := by
  obtain ⟨view, hnext⟩ := hturn.next
  have hmove := move_of_next hnext
  have hcounted : ∀ κ, s'.data.count κ + s'.data.matched + entering s' κ ≤ s'.data.called κ :=
    fun κ => hmove.counted (hturn.count hfresh (fun pc => pc = .entering κ) (by simp)) (h.counted κ)
  have hflag := hmove.flag h.flag
  generalize hpc : s.pc t = pc₀ at hmove
  generalize hd : s'.data = d at hmove hcounted hflag
  cases hmove with
  | call pc₀ κ' hout =>
      have hgrow : ∀ κ, s.data.called κ ≤
          Function.update s.data.called κ' (s.data.called κ' + 1) κ := by
        intro κ
        by_cases hk : κ = κ'
        · subst hk
          simp
        · simp [hk]
      refine ⟨by rwa [hd], by rwa [hd], ?_, by rw [hd]; exact h.passed, ?_⟩
      · rw [hd]
        exact fun κ κ'' hne hfound => (h.made κ κ'' hne hfound).trans (hgrow κ'')
      · rw [hd]
        exact fun κ => (h.enough κ).trans (hgrow κ)
  | enter κ' =>
      refine ⟨by rwa [hd], by rwa [hd], ?_, ?_, ?_⟩
      · rw [hd]
        exact h.made
      · rw [hd]
        exact h.passed
      · rw [hd]
        exact h.enough
  | reset κ' hgo hall =>
      have hfound := hunmatched κ' hpc
      have hmore : ∀ κ, s.data.matched + 1 ≤ s.data.called κ := by
        intro κ
        by_cases hk : κ = κ'
        · subst hk
          exact h.made κ.first κ κ.first_ne.symm (hall _ κ.first_ne)
        · exact h.partners hk (hgo hfound)
      refine ⟨by rwa [hd], by rwa [hd], ?_, ?_, ?_⟩
      · rw [hd]
        exact fun κ κ'' _ hne => absurd rfl hne
      · intro κ
        have hpassed := h.passed κ
        rw [hd]
        simp only [Data.resetAll, Data.pass]
        by_cases hk : κ = κ'
        · subst hk
          simp only [Function.update_self]
          omega
        · have := (h.flag κ).resolve_left (hall κ hk)
          simp only [ne_eq, hk, not_false_eq_true, Function.update_of_ne]
          omega
      · rw [hd]
        exact hmore
  | pass κ' hgo =>
      have hfound := hunmatched κ' hpc
      refine ⟨by rwa [hd], by rwa [hd], ?_, ?_, ?_⟩
      · intro κ κ'' hne hset
        rw [hd] at hset ⊢
        by_cases hk : κ = κ'
        · subst hk
          exact h.partners hne (hgo hfound)
        · simp only [Data.pass, ne_eq, hk, not_false_eq_true, Function.update_of_ne] at hset
          exact h.made κ κ'' hne hset
      · intro κ
        have hpassed := h.passed κ
        rw [hd]
        simp only [Data.pass]
        by_cases hk : κ = κ'
        · subst hk
          simp only [Function.update_self]
          omega
        · simp only [ne_eq, hk, not_false_eq_true, Function.update_of_ne]
          exact hpassed
      · rw [hd]
        exact h.enough
  | _ =>
      refine ⟨by rwa [hd], by rwa [hd], ?_, ?_, ?_⟩
      · rw [hd]
        exact h.made
      · rw [hd]
        exact h.passed
      · rw [hd]
        exact h.enough

/-- In a run in which no call comes to its loop test while its kind is marked as matched, no more
calls of a kind have returned than calls of either of the other kinds have been made. -/
theorem whale_partners (initialValue : ℕ → ℤ) (labs : List (Label Act)) (k : Kernel Pc Data)
    (hmeets : Meets (step client) Unmatched (init .out Data.new initialValue) labs)
    (hrun : runFrom (step client) (init .out Data.new initialValue) labs = .ok k) (κ κ' : Kind)
    (hne : κ' ≠ κ) : returned k κ ≤ k.data.called κ' := by
  have hinv := monitor_of_meets (I := Grouped) steady (Grouped.init initialValue) ?_ hmeets hrun
  · have hk := hinv.2
    have hpassed : (k.data.passed κ : ℤ) = k.data.matched + k.data.found κ := hk.passed κ
    have hflag : k.data.found κ = 0 ∨ k.data.found κ = 1 := hk.flag κ
    have hmade : k.data.found κ ≠ 0 → k.data.matched + 1 ≤ k.data.called κ' := hk.made κ κ' hne
    have henough : k.data.matched ≤ k.data.called κ' := hk.enough κ'
    unfold returned
    omega
  · intro k k' a o pc hr h hlab hnil hturn
    exact h.turn (hr.fresh steady) hturn hlab

/-- A call of `Matchmaker` wakes the two others, and all three return. -/
def unmatchedTest (k : Kernel Pc Data) : Label Act → Bool
  | .act _ => decide (∀ κ, k.pc k.currentThread = .test κ → k.data.found κ = 0)
  | _ => true

theorem unmatched_of_test {k : Kernel Pc Data} {lab : Label Act} (h : unmatchedTest k lab = true) :
    Unmatched k lab := by
  cases lab with
  | act a =>
      rw [unmatchedTest, decide_eq_true_eq] at h
      exact h
  | _ => trivial

theorem whale_partners_group :
    ∃ labs k, Meets (step client) Unmatched (init .out Data.new fun _ => 0) labs ∧
      runFrom (step client) (init .out Data.new fun _ => 0) labs = .ok k ∧
        returned k .male = 1 ∧ returned k .male ≤ k.data.called .female := by
  have hpass : passesMeeting (step client) unmatchedTest
      (fun k => returned k .male = 1) (init .out Data.new fun _ => 0)
      (coupleAsleep ++ turns [(Act.Matchmaker, 4), (.Matchmaker, 0), (.Matchmaker, 0),
        (.Matchmaker, 3), (.other .yield, 11), (.Male, 3)]) = true := by
    decide +kernel
  obtain ⟨hmeets, k, hrun, hend⟩ := of_passesMeeting hpass
  replace hmeets := hmeets.imp (Q := Unmatched) fun _ _ => unmatched_of_test
  exact ⟨_, k, hmeets, hrun, of_decide_eq_true hend,
    whale_partners _ _ k hmeets hrun .male .female (by decide)⟩

/-- Before the two others run, a second call of `Matchmaker` finds them still counted and
returns as well. -/
theorem whale_returns_without_partners :
    ∃ k, Runs client .out Data.new (fun _ => 0) k ∧
      ¬ returned k .matchmaker ≤ k.data.called .male := by
  have hpass : passes (step client) (init .out Data.new fun _ => 0)
      (coupleAsleep ++ turns [(Act.Matchmaker, 4), (.Matchmaker, 0), (.Matchmaker, 0),
        (.Matchmaker, 3), (.Matchmaker, 4), (.Matchmaker, 0), (.Matchmaker, 0), (.Matchmaker, 3)])
      (fun k => ¬ returned k .matchmaker ≤ k.data.called .male) = true := by
    decide +kernel
  obtain ⟨k, hk, hend⟩ := exists_of_passes _ hpass
  exact ⟨k, hk, of_decide_eq_true hend⟩

end Whale

end Nachos
