import Nachos.Lib.Count
import Nachos.Lib.Run
import Nachos.Userprog.BitMap
import Nachos.Userprog.Table

/-!
# The slots of processes

`storeTable` and `TablePtr` in runs of Exec and Exit: any number of processes make these system
calls, and a switch to another process may come between any two calls of a table. A process has one
thread, so one number stands for both; it is given at the slot for the backing store.

An Exec may fail for a wrong header or because the backing store cannot be made: the label says
so. A `Thread` that has exited may have been deleted, and then what its member `space` is
compared with says nothing: the label decides.
-/

namespace Nachos

open Lib

namespace Slots

/-- Where a process is. -/
inductive Phase where
  | absent
  /-- Its Exec has a slot for the backing store. -/
  | made
  /-- Its Exec has failed. -/
  | failed
  /-- In the user program, or in a system call that has not come to a table. -/
  | user
  /-- `Exec2` after its call of `storeTable->Alloc`. -/
  | exec (child storeID : ℕ)
  /-- `Exec2` after its `Fork`. -/
  | forked (child storeID : ℕ)
  /-- The loop of `SysCallExit` before `TablePtr->Get(i)`. -/
  | exitGet (i : ℕ)
  /-- The loop of `SysCallExit` before `TablePtr->Release(i)`. -/
  | exitRelease (i : ℕ)
  | exited
  deriving DecidableEq

structure State where
  storeTable : Table ℕ
  tablePtr : Table ℕ
  phase : ℕ → Phase
  /-- The numbers given so far are those below. -/
  numProcs : ℕ

inductive Act where
  | exec (t : ℕ)
  | exit (t : ℕ)
  /-- The system call goes on. `valid` says that the executable is right and its backing store can
  be made, `same` that a `Thread` that has exited seems to have the address space of `t`. -/
  | goOn (t : ℕ) (valid same : Bool)

def State.setPhase (s : State) (t : ℕ) (pc : Phase) : State :=
  { s with phase := Function.update s.phase t pc }

/-- The two phases that change in an Exec, that of the caller and that of the new process. -/
def State.setPhases (s : State) (t child : ℕ) (pc pc' : Phase) : State :=
  (s.setPhase child pc').setPhase t pc

/-- `Exec2` at `storeTable->Alloc`. -/
def execAlloc (s : State) (t : ℕ) : State :=
  match s.storeTable.alloc s.numProcs with
  | (storeID, storeTable) =>
      if storeID = -1 then
        s
      else
        { s with storeTable := storeTable, numProcs := s.numProcs + 1 }.setPhases t s.numProcs
          (.exec s.numProcs storeID.toNat) .made

/-- `Exec2` from there to its `Fork`, or to the branch in which it fails. -/
def execFork (s : State) (t child storeID : ℕ) (valid : Bool) : State :=
  if valid then
    s.setPhases t child (.forked child storeID) .user
  else
    { s with storeTable := s.storeTable.release storeID }.setPhases t child .user .failed

/-- `Exec2` at `TablePtr->Alloc`. -/
def execEnter (s : State) (t child storeID : ℕ) : State :=
  match s.tablePtr.alloc child with
  | (processID, tablePtr) =>
      if processID = -1 then
        { s with storeTable := s.storeTable.release storeID }.setPhase t .user
      else
        { s with tablePtr := tablePtr }.setPhase t .user

/-- The loop of `SysCallExit` up to a call of `Release`. -/
def exitGet (s : State) (t i : ℕ) (same : Bool) : State :=
  if i < TABLESIZE then
    match s.tablePtr.get i with
    | none => s.setPhase t (.exitGet (i + 1))
    | some temp =>
        if (if s.phase temp = .exited then same = true else temp = t) then
          s.setPhase t (.exitRelease i)
        else
          s.setPhase t (.exitGet (i + 1))
  else
    s.setPhase t .exited

def exitRelease (s : State) (t i : ℕ) : State :=
  { s with tablePtr := s.tablePtr.release i }.setPhase t (.exitGet (i + 1))

/-- One move; a move that the process cannot make is none. -/
def step (s : State) : Act → Except Fault State
  | .exec t => if s.phase t = .user then .ok (execAlloc s t) else .ok s
  | .exit t => if s.phase t = .user then .ok (s.setPhase t (.exitGet 0)) else .ok s
  | .goOn t valid same =>
      match s.phase t with
      | .exec child storeID => .ok (execFork s t child storeID valid)
      | .forked child storeID => .ok (execEnter s t child storeID)
      | .exitGet i => .ok (exitGet s t i same)
      | .exitRelease i => .ok (exitRelease s t i)
      | _ => .ok s

/-- `StartProcess` has started the first process. -/
def init (maxProcess : ℕ) : State where
  storeTable := ((Table.new maxProcess).alloc 0).2
  tablePtr := ((Table.new maxProcess).alloc 0).2
  phase := Function.update (fun _ => .absent) 0 .user
  numProcs := 1

/-- The process has been started and has not exited. -/
def Phase.Alive : Phase → Prop
  | .absent => False
  | .made => False
  | .failed => False
  | .exited => False
  | _ => True

instance : DecidablePred Phase.Alive
  | .absent => isFalse id
  | .made => isFalse id
  | .failed => isFalse id
  | .exited => isFalse id
  | .user => isTrue trivial
  | .exec _ _ => isTrue trivial
  | .forked _ _ => isTrue trivial
  | .exitGet _ => isTrue trivial
  | .exitRelease _ => isTrue trivial

/-- The processes that are alive. -/
def State.alive (s : State) : ℕ := Nat.count (fun t => (s.phase t).Alive) s.numProcs

/-- The processes that have been started, whether they have exited or not, and those whose Exec has
a slot for the backing store. -/
def State.begun (s : State) : ℕ := Nat.count (fun t => s.phase t ≠ .failed) s.numProcs

/-- An Exec finds its slots: one of `storeTable` when it comes to the call, and one of
`TablePtr` after its `Fork`. -/
def State.HasSlots (s : State) : Prop :=
  (s.storeTable.alloc s.numProcs).1 ≠ -1 ∧
    ∀ t child storeID, s.phase t = .forked child storeID → (s.tablePtr.alloc child).1 ≠ -1

/-! ## The invariant -/

variable {s : State} {maxProcess t : ℕ}

/-- An Exec that has a slot for the backing store and none for its thread. -/
def Phase.InExec : Phase → Prop
  | .exec _ _ => True
  | .forked _ _ => True
  | _ => False

instance : DecidablePred Phase.InExec
  | .absent => isFalse id
  | .made => isFalse id
  | .failed => isFalse id
  | .exited => isFalse id
  | .user => isFalse id
  | .exec _ _ => isTrue trivial
  | .forked _ _ => isTrue trivial
  | .exitGet _ => isFalse id
  | .exitRelease _ => isFalse id

def State.pending (s : State) : ℕ := Nat.count (fun t => (s.phase t).InExec) s.numProcs

/-- The slots of `storeTable` are those of the processes that have begun, and no more processes are
in `TablePtr` than there are backing stores, those of the Execs not counted. -/
structure Sound (maxProcess : ℕ) (s : State) : Prop where
  storeSize : s.storeTable.tableSize = maxProcess
  tableSize : s.tablePtr.tableSize = maxProcess
  absent : ∀ t, s.numProcs ≤ t → s.phase t = .absent
  used : s.storeTable.used = s.begun
  table : s.tablePtr.used + s.pending ≤ s.storeTable.used
  slot : ∀ t child storeID, s.phase t = .exec child storeID →
    s.storeTable.get storeID = some child ∧ s.phase child = .made
  single : ∀ t t' child storeID storeID', s.phase t = .exec child storeID →
    s.phase t' = .exec child storeID' → t = t'

theorem Sound.lt_of_phase (h : Sound maxProcess s) (ht : s.phase t ≠ .absent) :
    t < s.numProcs := by
  by_contra hge
  exact ht (h.absent t (Nat.le_of_not_lt hge))

@[simp] theorem phase_setPhase_self (s : State) (t : ℕ) (pc : Phase) :
    (s.setPhase t pc).phase t = pc := Function.update_self ..

theorem phase_setPhase_of_ne {u : ℕ} (s : State) (pc : Phase) (hu : u ≠ t) :
    (s.setPhase t pc).phase u = s.phase u := Function.update_of_ne hu ..

/-- How the number of pending Execs changes with one phase. -/
theorem pending_setPhase (ht : t < s.numProcs) (pc : Phase) :
    (s.setPhase t pc).pending + (if (s.phase t).InExec then 1 else 0) =
      s.pending + (if pc.InExec then 1 else 0) := by
  have hcount := count_change (p := fun u => (s.phase u).InExec)
    (q := fun u => ((s.setPhase t pc).phase u).InExec) ht
    fun u hu => by rw [phase_setPhase_of_ne s pc hu]
  simp only [phase_setPhase_self] at hcount
  exact hcount

theorem begun_setPhase (ht : t < s.numProcs) (pc : Phase) :
    (s.setPhase t pc).begun + (if s.phase t ≠ .failed then 1 else 0) =
      s.begun + (if pc ≠ .failed then 1 else 0) := by
  have hcount := count_change (p := fun u => s.phase u ≠ .failed)
    (q := fun u => (s.setPhase t pc).phase u ≠ .failed) ht
    fun u hu => by rw [phase_setPhase_of_ne s pc hu]
  simp only [phase_setPhase_self] at hcount
  exact hcount

/-- A process goes on outside the part of Exec in which it has a slot and no thread for it. -/
theorem Sound.move {pc : Phase} {tablePtr : Table ℕ} (h : Sound maxProcess s)
    (ht : s.phase t ≠ .absent) (hmade : s.phase t ≠ .made) (hfailed : s.phase t ≠ .failed)
    (hpc : pc ≠ .failed) (hexec : ∀ child storeID, pc ≠ .exec child storeID)
    (hsize : tablePtr.tableSize = maxProcess)
    (hused : tablePtr.used + (s.setPhase t pc).pending ≤ s.storeTable.used) :
    Sound maxProcess ({ s with tablePtr := tablePtr }.setPhase t pc) := by
  have hlt := h.lt_of_phase ht
  have hphase : ∀ u child storeID, (s.setPhase t pc).phase u = .exec child storeID →
      u ≠ t ∧ s.phase u = .exec child storeID := by
    intro u child storeID hu
    have hne : u ≠ t := by
      rintro rfl
      rw [phase_setPhase_self] at hu
      exact hexec child storeID hu
    exact ⟨hne, (phase_setPhase_of_ne s pc hne).symm.trans hu⟩
  refine ⟨h.storeSize, hsize, ?_, ?_, hused, ?_, ?_⟩
  · intro u hu
    have hne : u ≠ t := by
      rintro rfl
      exact absurd hlt (Nat.not_lt.2 hu)
    exact (phase_setPhase_of_ne s pc hne).trans (h.absent u hu)
  · have hbegun := begun_setPhase hlt pc
    rw [if_pos hfailed, if_pos hpc] at hbegun
    show s.storeTable.used = (s.setPhase t pc).begun
    rw [h.used]
    omega
  · intro u child storeID hu
    obtain ⟨hget, hchild⟩ := h.slot u child storeID (hphase u child storeID hu).2
    have hne : child ≠ t := by
      rintro rfl
      exact hmade hchild
    exact ⟨hget, (phase_setPhase_of_ne s pc hne).trans hchild⟩
  · intro u u' child storeID storeID' hu hu'
    exact h.single u u' child storeID storeID' (hphase u child storeID hu).2
      (hphase u' child storeID' hu').2

section setPhases

variable {child storeID : ℕ} {pc pc' : Phase}

theorem phase_setPhases_child (hne : t ≠ child) : (s.setPhases t child pc pc').phase child = pc' :=
  (phase_setPhase_of_ne _ pc hne.symm).trans (phase_setPhase_self s child pc')

theorem phase_setPhases_of_ne {u : ℕ} (hu : u ≠ t) (hu' : u ≠ child) :
    (s.setPhases t child pc pc').phase u = s.phase u :=
  (phase_setPhase_of_ne _ pc hu).trans (phase_setPhase_of_ne s pc' hu')

theorem pending_setPhases (pc pc' : Phase) (ht : t < s.numProcs) (hc : child < s.numProcs)
    (hne : t ≠ child) :
    (s.setPhases t child pc pc').pending + (if (s.phase t).InExec then 1 else 0) +
        (if (s.phase child).InExec then 1 else 0) =
      s.pending + (if pc.InExec then 1 else 0) + (if pc'.InExec then 1 else 0) := by
  have h := pending_setPhase hc pc'
  have h' := pending_setPhase (s := s.setPhase child pc') ht pc
  rw [phase_setPhase_of_ne s pc' hne] at h'
  unfold State.setPhases
  omega

theorem begun_setPhases (pc pc' : Phase) (ht : t < s.numProcs) (hc : child < s.numProcs)
    (hne : t ≠ child) :
    (s.setPhases t child pc pc').begun + (if s.phase t ≠ .failed then 1 else 0) +
        (if s.phase child ≠ .failed then 1 else 0) =
      s.begun + (if pc ≠ .failed then 1 else 0) + (if pc' ≠ .failed then 1 else 0) := by
  have h := begun_setPhase hc pc'
  have h' := begun_setPhase (s := s.setPhase child pc') ht pc
  rw [phase_setPhase_of_ne s pc' hne] at h'
  unfold State.setPhases
  omega

/-- An Exec in its first part is an old one or the new one. -/
theorem exec_of_setPhases {u c j : ℕ} (hne : t ≠ child)
    (hu : (s.setPhases t child (.exec child storeID) .made).phase u = .exec c j) :
    (u = t ∧ c = child ∧ j = storeID) ∨ s.phase u = .exec c j := by
  by_cases hut : u = t
  · subst hut
    rw [State.setPhases, phase_setPhase_self] at hu
    cases hu
    exact .inl ⟨rfl, rfl, rfl⟩
  · by_cases huc : u = child
    · rw [huc, phase_setPhases_child hne] at hu
      cases hu
    · rw [phase_setPhases_of_ne hut huc] at hu
      exact .inr hu

/-- The Execs of the others are as they were when one leaves its first part. -/
theorem Sound.others (h : Sound maxProcess s) (ht : s.phase t = .exec child storeID)
    (hpc : ∀ c i, pc ≠ .exec c i) (hpc' : ∀ c i, pc' ≠ .exec c i) {u c i : ℕ}
    (hu : (s.setPhases t child pc pc').phase u = .exec c i) :
    s.phase u = .exec c i ∧ c ≠ child ∧ (s.setPhases t child pc pc').phase c = .made := by
  have hmade := (h.slot t child storeID ht).2
  have htc : t ≠ child := by
    rintro rfl
    rw [ht] at hmade
    cases hmade
  have hut : u ≠ t := by
    rintro rfl
    exact hpc c i ((phase_setPhase_self _ _ _).symm.trans hu)
  have huc : u ≠ child := by
    rintro rfl
    rw [phase_setPhases_child htc] at hu
    exact hpc' c i hu
  rw [phase_setPhases_of_ne hut huc] at hu
  have hmade' := (h.slot u c i hu).2
  have hc : c ≠ child := by
    rintro rfl
    exact hut (h.single u t c i storeID hu ht)
  have hct : c ≠ t := by
    rintro rfl
    rw [ht] at hmade'
    cases hmade'
  exact ⟨hu, hc, (phase_setPhases_of_ne hct hc).trans hmade'⟩

/-- One Exec leaves its first part, with its slot or without it. -/
theorem Sound.leave {storeTable : Table ℕ} (h : Sound maxProcess s)
    (ht : s.phase t = .exec child storeID) (hpc : ∀ c i, pc ≠ .exec c i)
    (hpc' : ∀ c i, pc' ≠ .exec c i) (hsize : storeTable.tableSize = maxProcess)
    (hused : storeTable.used = (s.setPhases t child pc pc').begun)
    (htable : s.tablePtr.used + (s.setPhases t child pc pc').pending ≤ storeTable.used)
    (hget : ∀ c i : ℕ, c ≠ child → s.storeTable.get i = some c → storeTable.get i = some c) :
    Sound maxProcess ({ s with storeTable := storeTable }.setPhases t child pc pc') := by
  have hmade := (h.slot t child storeID ht).2
  refine ⟨hsize, h.tableSize, ?_, hused, htable, ?_, ?_⟩
  · intro u hu
    have hut : u ≠ t := by
      rintro rfl
      exact absurd (h.lt_of_phase (by simp [ht])) (Nat.not_lt.2 hu)
    have huc : u ≠ child := by
      rintro rfl
      exact absurd (h.lt_of_phase (by simp [hmade])) (Nat.not_lt.2 hu)
    exact (phase_setPhases_of_ne hut huc).trans (h.absent u hu)
  · intro u c i hu
    obtain ⟨hold, hc, hmade'⟩ := h.others ht hpc hpc' hu
    exact ⟨hget c i hc (h.slot u c i hold).1, hmade'⟩
  · intro u u' c i i' hu hu'
    exact h.single u u' c i i' (h.others ht hpc hpc' hu).1 (h.others ht hpc hpc' hu').1

end setPhases

theorem begun_grow (storeTable : Table ℕ) (h : s.phase s.numProcs = .absent) :
    State.begun { s with storeTable := storeTable, numProcs := s.numProcs + 1 } = s.begun + 1 := by
  show Nat.count (fun u => s.phase u ≠ .failed) (s.numProcs + 1) = _
  rw [Nat.count_succ, if_pos (by simp [h])]
  rfl

theorem pending_grow (storeTable : Table ℕ) (h : s.phase s.numProcs = .absent) :
    State.pending { s with storeTable := storeTable, numProcs := s.numProcs + 1 } = s.pending := by
  show Nat.count (fun u => (s.phase u).InExec) (s.numProcs + 1) = _
  rw [Nat.count_succ, if_neg (by simp [h, Phase.InExec])]
  rfl

/-- The caller and the new process in the grown state. -/
theorem Sound.grow {i : ℕ} {storeTable : Table ℕ} (h : Sound maxProcess s)
    (ht : s.phase t = .user) (hsize : storeTable.tableSize = maxProcess)
    (hused : storeTable.used = s.storeTable.used + 1)
    (hnone : s.storeTable.get i = none)
    (hget : ∀ j : ℕ, storeTable.get j = if j = i then some s.numProcs else s.storeTable.get j) :
    Sound maxProcess ({ s with storeTable := storeTable, numProcs := s.numProcs + 1 }.setPhases t
      s.numProcs (.exec s.numProcs i) .made) := by
  have hlt : t < s.numProcs := h.lt_of_phase (by simp [ht])
  have hne : t ≠ s.numProcs := Nat.ne_of_lt hlt
  have habsent := h.absent s.numProcs (Nat.le_refl _)
  have hgrown := begun_grow storeTable habsent
  have hgrown' := pending_grow storeTable habsent
  obtain ⟨s₁, hs₁⟩ : ∃ s₁, s₁ = State.mk storeTable s.tablePtr s.phase (s.numProcs + 1) := ⟨_, rfl⟩
  rw [← hs₁] at hgrown hgrown' ⊢
  have hn₁ : s₁.numProcs = s.numProcs + 1 := by rw [hs₁]
  have hp₁ : s₁.phase = s.phase := by rw [hs₁]
  have hst₁ : s₁.storeTable = storeTable := by rw [hs₁]
  have hbegun := begun_setPhases (s := s₁) (.exec s.numProcs i) .made (by omega) (by omega) hne
  have hpending := pending_setPhases (s := s₁) (.exec s.numProcs i) .made (by omega) (by omega) hne
  simp only [hp₁, ht, ne_eq, reduceCtorEq, not_false_eq_true, ↓reduceIte, habsent,
    Nat.add_right_cancel_iff, Phase.InExec, add_zero] at hbegun hpending
  have hused₀ := h.used
  have htable := h.table
  have hexec : ∀ u c j, (s₁.setPhases t s.numProcs (.exec s.numProcs i) .made).phase u = .exec c j →
      (u = t ∧ c = s.numProcs ∧ j = i) ∨ s.phase u = .exec c j := by
    intro u c j hu
    rw [← hp₁]
    exact exec_of_setPhases hne hu
  have hmade : ∀ c, s.phase c = .made →
      c ≠ s.numProcs ∧ (s₁.setPhases t s.numProcs (.exec s.numProcs i) .made).phase c = .made := by
    intro c hc
    have hct : c ≠ t := by
      rintro rfl
      rw [ht] at hc
      cases hc
    have hcn : c ≠ s.numProcs := by
      rintro rfl
      rw [habsent] at hc
      cases hc
    exact ⟨hcn, by rw [phase_setPhases_of_ne hct hcn, hp₁, hc]⟩
  refine ⟨hst₁ ▸ hsize, ?_, ?_, ?_, ?_, ?_, ?_⟩
  · rw [hs₁]
    exact h.tableSize
  · intro u hu
    have hu : s.numProcs + 1 ≤ u := hn₁ ▸ hu
    rw [phase_setPhases_of_ne (by omega) (by omega), hp₁]
    exact h.absent u (by omega)
  · show s₁.storeTable.used = _
    rw [hst₁]
    omega
  · show s₁.tablePtr.used + _ ≤ s₁.storeTable.used
    rw [hst₁, show s₁.tablePtr = s.tablePtr by rw [hs₁]]
    omega
  · intro u c j hu
    show s₁.storeTable.get j = some c ∧ _
    rw [hst₁, hget]
    rcases hexec u c j hu with ⟨rfl, rfl, rfl⟩ | hold
    · exact ⟨if_pos rfl, phase_setPhases_child hne⟩
    · obtain ⟨hslot, hc⟩ := h.slot u c j hold
      have hji : j ≠ i := by
        rintro rfl
        rw [hnone] at hslot
        cases hslot
      exact ⟨(if_neg hji).trans hslot, (hmade c hc).2⟩
  · intro u u' c j j' hu hu'
    rcases hexec u c j hu with ⟨rfl, rfl, rfl⟩ | hold
    · rcases hexec u' _ j' hu' with ⟨rfl, -, -⟩ | hold'
      · rfl
      · exact absurd rfl (hmade _ (h.slot u' _ j' hold').2).1
    · rcases hexec u' c j' hu' with ⟨rfl, rfl, rfl⟩ | hold'
      · exact absurd rfl (hmade _ (h.slot u _ j hold).2).1
      · exact h.single u u' c j j' hold hold'

theorem Sound.execAlloc (h : Sound maxProcess s) (ht : s.phase t = .user) :
    Sound maxProcess (execAlloc s t) := by
  unfold Slots.execAlloc
  rcases s.storeTable.alloc_spec s.numProcs with
    ⟨halloc, -⟩ | ⟨i, storeTable, halloc, -, hnone, hsize, hused, hget⟩
  · simp only [halloc, if_true]
    exact h
  · simp only [halloc, if_neg (show ¬ (i : ℤ) = -1 by omega), Int.toNat_natCast]
    exact h.grow ht (hsize.trans h.storeSize) hused hnone hget

theorem Sound.execFork {child storeID : ℕ} {valid : Bool} (h : Sound maxProcess s)
    (ht : s.phase t = .exec child storeID) :
    Sound maxProcess (execFork s t child storeID valid) := by
  obtain ⟨hslot, hmade⟩ := h.slot t child storeID ht
  have hlt : t < s.numProcs := h.lt_of_phase (by simp [ht])
  have hlt' : child < s.numProcs := h.lt_of_phase (by simp [hmade])
  have hne : t ≠ child := by
    rintro rfl
    rw [ht] at hmade
    cases hmade
  have hused := h.used
  have htable := h.table
  unfold Slots.execFork
  cases valid with
  | true =>
      rw [if_pos rfl]
      have hbegun := begun_setPhases (.forked child storeID) .user hlt hlt' hne
      have hpending := pending_setPhases (.forked child storeID) .user hlt hlt' hne
      simp only [ht, ne_eq, reduceCtorEq, not_false_eq_true, ↓reduceIte, hmade,
        Nat.add_right_cancel_iff, Phase.InExec, add_zero] at hbegun hpending
      exact h.leave ht (by simp) (by simp) h.storeSize (by omega) (by omega) fun _ _ _ => id
  | false =>
      rw [if_neg (by simp)]
      have hbegun := begun_setPhases .user .failed hlt hlt' hne
      have hpending := pending_setPhases .user .failed hlt hlt' hne
      simp only [ht, ne_eq, reduceCtorEq, not_false_eq_true, ↓reduceIte, hmade,
        not_true_eq_false, add_zero, Nat.add_right_cancel_iff, Phase.InExec] at hbegun hpending
      have hrelease := s.storeTable.used_release storeID
      rw [hslot] at hrelease
      simp only [Option.isSome_some, if_true] at hrelease
      refine h.leave ht (by simp) (by simp) (by simpa using h.storeSize) (by omega) (by omega) ?_
      intro c i hc hi
      rw [Table.get_release, if_neg]
      · exact hi
      · rintro rfl
        exact hc (Option.some.inj (hi.symm.trans hslot))

/-- There is a slot of `TablePtr` for every Exec that has one of `storeTable`. -/
theorem Sound.table_lt (h : Sound maxProcess s) (ht : (s.phase t).InExec) :
    s.tablePtr.used < s.tablePtr.tableSize := by
  have hlt : t < s.numProcs := h.lt_of_phase fun habsent => by simp [habsent, Phase.InExec] at ht
  have hpos : 0 < s.pending := count_pos hlt ht
  have htable := h.table
  have hle := s.storeTable.used_le
  have hsize := h.storeSize
  have hsize' := h.tableSize
  omega

theorem Sound.execEnter {child storeID : ℕ} (h : Sound maxProcess s)
    (ht : s.phase t = .forked child storeID) : Sound maxProcess (execEnter s t child storeID) := by
  have hin : (s.phase t).InExec := by
    rw [ht]
    trivial
  have hfree := h.table_lt hin
  have htable := h.table
  have hlt : t < s.numProcs := h.lt_of_phase (by simp [ht])
  have hpending := pending_setPhase hlt .user
  rw [if_pos hin, if_neg (show ¬ Phase.user.InExec from id)] at hpending
  unfold Slots.execEnter
  rcases s.tablePtr.alloc_spec child with
    ⟨-, hfull⟩ | ⟨i, tablePtr, halloc, -, -, hsize, hused, -⟩
  · exact absurd hfull (Nat.ne_of_lt hfree)
  · simp only [halloc, if_neg (show ¬ (i : ℤ) = -1 by omega)]
    exact h.move (by simp [ht]) (by simp [ht]) (by simp [ht]) (by simp) (by simp)
      (hsize.trans h.tableSize) (by omega)

/-- A step of Exit. -/
theorem Sound.exitMove {pc : Phase} {tablePtr : Table ℕ} (h : Sound maxProcess s)
    (ht : (s.phase t).Alive) (hin : ¬ (s.phase t).InExec) (hpc : ¬ pc.InExec) (hpc' : pc ≠ .failed)
    (hsize : tablePtr.tableSize = maxProcess) (hused : tablePtr.used ≤ s.tablePtr.used) :
    Sound maxProcess ({ s with tablePtr := tablePtr }.setPhase t pc) := by
  have hnot : ∀ {q : Phase}, ¬ q.Alive → s.phase t ≠ q := fun hq hqt => hq (hqt ▸ ht)
  have htable := h.table
  have hpending := pending_setPhase (h.lt_of_phase (hnot id)) pc
  rw [if_neg hin, if_neg hpc] at hpending
  refine h.move (hnot id) (hnot id) (hnot id) hpc' ?_ hsize (by omega)
  rintro c i rfl
  exact hpc trivial

theorem Sound.exitGet {i : ℕ} {same : Bool} (h : Sound maxProcess s) (ht : s.phase t = .exitGet i) :
    Sound maxProcess (exitGet s t i same) := by
  have halive : (s.phase t).Alive := by
    rw [ht]
    trivial
  have hin : ¬ (s.phase t).InExec := by
    rw [ht]
    exact id
  have hmove : ∀ {pc : Phase}, ¬ pc.InExec → pc ≠ .failed → Sound maxProcess (s.setPhase t pc) :=
    fun hpc hpc' => h.exitMove halive hin hpc hpc' h.tableSize (Nat.le_refl _)
  unfold Slots.exitGet
  split
  · split
    · exact hmove id (by simp)
    · rename_i temp _
      by_cases hsame : (if s.phase temp = .exited then same = true else temp = t)
      · rw [if_pos hsame]
        exact hmove id (by simp)
      · rw [if_neg hsame]
        exact hmove id (by simp)
  · exact hmove id (by simp)

theorem Sound.exitRelease {i : ℕ} (h : Sound maxProcess s) (ht : s.phase t = .exitRelease i) :
    Sound maxProcess (exitRelease s t i) := by
  have hrelease := s.tablePtr.used_release i
  refine h.exitMove ?_ ?_ id (by simp) ?_ (by omega)
  · rw [ht]
    trivial
  · rw [ht]
    exact id
  · rw [Table.tableSize_release]
    exact h.tableSize

theorem Sound.step {a : Act} {s' : State} (h : Sound maxProcess s) (hs : step s a = .ok s') :
    Sound maxProcess s' := by
  cases a with
  | exec t =>
      simp only [Slots.step] at hs
      split at hs
      · rename_i ht
        cases hs
        exact h.execAlloc ht
      · cases hs
        exact h
  | exit t =>
      simp only [Slots.step] at hs
      split at hs
      · rename_i ht
        cases hs
        exact h.exitMove (by rw [ht]; trivial) (by rw [ht]; exact id) id (by simp) h.tableSize
          (Nat.le_refl _)
      · cases hs
        exact h
  | goOn t valid same =>
      simp only [Slots.step] at hs
      split at hs
      · rename_i ht
        cases hs
        exact h.execFork ht
      · rename_i ht
        cases hs
        exact h.execEnter ht
      · rename_i ht
        cases hs
        exact h.exitGet ht
      · rename_i ht
        cases hs
        exact h.exitRelease ht
      · cases hs
        exact h

theorem phase_init_of_ne {u : ℕ} (hu : u ≠ 0) : (init maxProcess).phase u = .absent := by
  show Function.update (fun _ => Phase.absent) 0 Phase.user u = .absent
  rw [Function.update_of_ne hu]

theorem Sound.init (hmax : 0 < maxProcess) : Sound maxProcess (init maxProcess) := by
  rcases (Table.new maxProcess : Table ℕ).alloc_spec 0 with
    ⟨-, hfull⟩ | ⟨i, table, halloc, -, -, hsize, hused, -⟩
  · rw [Table.used_new, Table.tableSize_new] at hfull
    omega
  · rw [Table.tableSize_new] at hsize
    rw [Table.used_new] at hused
    have hstore : (Slots.init maxProcess).storeTable = table := congrArg Prod.snd halloc
    have htable : (Slots.init maxProcess).tablePtr = table := congrArg Prod.snd halloc
    have hexec : ∀ u c i, (Slots.init maxProcess).phase u ≠ .exec c i := by
      intro u c i hu
      by_cases hu0 : u = 0
      · subst hu0
        cases hu
      · rw [phase_init_of_ne hu0] at hu
        cases hu
    refine ⟨by rw [hstore, hsize], by rw [htable, hsize], ?_, ?_, ?_, ?_, ?_⟩
    · intro u hu
      exact phase_init_of_ne (Nat.ne_of_gt hu)
    · rw [hstore, hused]
      rfl
    · rw [hstore, htable]
      exact Nat.le_refl _
    · exact fun u c i hu => absurd hu (hexec u c i)
    · exact fun u u' c i i' hu => absurd hu (hexec u c i)

/-- In every state that is reached an Exec finds its slots if and only if fewer than
`maxProcess` processes have been started so far, those being started included: no slot of
`storeTable` is given back. -/
theorem exec_has_slots_iff (hmax : 0 < maxProcess) (h : Reachable step (init maxProcess) s) :
    (s.alive < maxProcess → s.HasSlots) ↔ (s.alive < maxProcess → s.begun < maxProcess) := by
  have hsound : Sound maxProcess s :=
    h.invariant (Sound.init hmax) fun _ _ _ _ hs hstep => hs.step hstep
  have hstore : (s.storeTable.alloc s.numProcs).1 ≠ -1 ↔ s.begun < maxProcess := by
    have hle := s.storeTable.used_le
    rw [Ne, Table.alloc_eq_neg_one_iff, ← hsound.used]
    rw [hsound.storeSize] at hle ⊢
    omega
  refine imp_congr_right fun _ => ⟨fun hslots => hstore.1 hslots.1, fun hbegun => ?_⟩
  refine ⟨hstore.2 hbegun, ?_⟩
  intro t child storeID ht
  rw [Ne, Table.alloc_eq_neg_one_iff]
  refine Nat.ne_of_lt (hsound.table_lt (t := t) ?_)
  rw [ht]
  trivial

/-- An Exec by the first process. -/
def oneExec : List Act := [.exec 0, .goOn 0 true false, .goOn 0 true false]

/-- The process 1 exits; its slot is the second. -/
def oneExit : List Act := .exit 1 :: List.replicate 52 (.goOn 1 true false)

theorem exec_has_slots_two :
    0 < 14 ∧ ∃ s, Reachable step (init 14) s ∧ s.alive = 1 ∧ s.begun = 2 ∧ s.HasSlots := by
  obtain ⟨s, hs, htest⟩ : ∃ s, Reachable step (init 14) s ∧
      decide (s.alive = 1 ∧ s.begun = 2) = true :=
    exists_of_passes (oneExec ++ oneExit) (by decide +kernel)
  obtain ⟨halive, hbegun⟩ := of_decide_eq_true htest
  refine ⟨by decide, s, hs, halive, hbegun, ?_⟩
  refine (exec_has_slots_iff (by decide) hs).2 (fun _ => ?_) ?_
  · rw [hbegun]
    decide
  · rw [halive]
    decide

/-- Thirteen processes have been started and one of them has exited: thirteen are alive, and no
slot is free. -/
theorem exec_lacks_slot : ∃ s, Reachable step (init 14) s ∧ s.alive < 14 ∧ ¬ s.HasSlots := by
  obtain ⟨s, hs, htest⟩ : ∃ s, Reachable step (init 14) s ∧
      decide (s.alive = 13 ∧ (s.storeTable.alloc s.numProcs).1 = -1) = true :=
    exists_of_passes ((List.replicate 13 oneExec).flatten ++ oneExit) (by decide +kernel)
  obtain ⟨halive, hfull⟩ := of_decide_eq_true htest
  refine ⟨s, hs, ?_, fun hslots => hslots.1 hfull⟩
  rw [halive]
  decide

end Slots

end Nachos
