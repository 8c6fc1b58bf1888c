import Nachos.Threads.Section
import Nachos.Threads.SemaphoreCalls

/-!
# Devices that are used under a lock

A driver takes a lock, makes requests and waits for each of them with a call of `P`; the interrupt
of a request calls `V` once. `Device` is the account of the requests, which are numbered in the
order in which they are made. Since the lock keeps the other threads away, the unit that a call of
`P` takes is the one of its own request: the device has nothing to do when a thread in the section
is in its own code.
-/

namespace Nachos

open Lib

structure Device where
  /-- The threads that have made the requests. -/
  issuers : List Tid
  /-- The requests whose interrupt is still to come. -/
  pending : List ℕ
  completed : List ℕ

namespace Device

def new : Device := ⟨[], [], []⟩

def issue (d : Device) (t : Tid) : Device :=
  { d with issuers := d.issuers ++ [t], pending := d.pending ++ [d.issuers.length] }

def complete (d : Device) (i : ℕ) : Device :=
  { d with pending := d.pending.erase i, completed := d.completed ++ [i] }

/-- Every request is completed or pending. -/
def Accounted (d : Device) : Prop := (d.completed ++ d.pending).Perm (List.range d.issuers.length)

theorem accounted_new : new.Accounted := .refl _

variable {d : Device}

theorem Accounted.issue (h : d.Accounted) (t : Tid) : (d.issue t).Accounted := by
  simp only [Accounted, Device.issue, List.length_append, List.length_singleton, List.range_succ]
  rw [← List.append_assoc]
  exact List.Perm.append_right _ h

theorem Accounted.complete (h : d.Accounted) {i : ℕ} (hi : i ∈ d.pending) :
    (d.complete i).Accounted := by
  refine List.Perm.trans ?_ h
  simp only [Device.complete, List.append_assoc, List.singleton_append]
  exact (List.perm_cons_erase hi).symm.append_left _

/-- If as many requests are completed as have been made, then none is pending. -/
theorem Accounted.pending_eq_nil (h : d.Accounted) (hle : d.issuers.length ≤ d.completed.length) :
    d.pending = [] := by
  have hlength := h.length_eq
  rw [List.length_append, List.length_range] at hlength
  exact List.length_eq_zero_iff.1 (by omega)

theorem Accounted.completed (h : d.Accounted) (hnone : d.pending = []) {i : ℕ}
    (hi : i < d.issuers.length) : i ∈ d.completed := by
  have hmem := h.symm.subset (List.mem_range.2 hi)
  simpa [hnone] using hmem

theorem length_le_completed (hall : ∀ i < d.issuers.length, i ∈ d.completed) :
    d.issuers.length ≤ d.completed.length := by
  have hsub : List.range d.issuers.length ⊆ d.completed := fun i hi => hall i (List.mem_range.1 hi)
  simpa using (List.subperm_of_subset List.nodup_range hsub).length_le

end Device

/-- What the own code of the thread `t` does to the device: it makes a request and waits for it, or
leaves the device and the semaphore alone. -/
inductive Device.Operates {ρ : Type} (s : ℕ) (t : Tid) (d : Device) (inside : Bool) :
    Call ρ → Option ℕ → Device → Prop
  | request (h : inside = true) : Operates s t d inside (.P s) (some d.issuers.length) (d.issue t)
  | other (o : Call ρ) (ho : o.about ≠ some (.semaphore s)) : Operates s t d inside o none d

/-- The program uses the device under the lock `l` and waits for it with the semaphore `s`. A thread
at `pc` waits for the request `waits pc`. -/
structure Client.Drives {ρ δ α : Type} (cl : Client ρ δ α) (start : ρ) (l s : ℕ) (dev : δ → Device)
    (inside entry : ρ → Bool) (waits : ρ → Option ℕ) : Prop where
  guards : cl.Guards l inside entry
  out : inside start = false
  fork : ∀ {t pc d view a c join start' pc' d'},
    cl.next t pc d view a = some (.fork c join start', pc', d') → start' = start
  past : ∀ {pc i}, waits pc = some i → inside pc = true ∧ entry pc = false
  operates : ∀ {t pc d view a o pc' d'}, cl.next t pc d view a = some (o, pc', d') →
    (dev d).Operates s t (inside pc) o (waits pc') (dev d')
  handler : ∀ {a d sems d'}, cl.handler a d = some (sems, d') →
    (∃ i ∈ (dev d).pending, dev d' = (dev d).complete i ∧ sems.count s = 1) ∨
      dev d' = dev d ∧ sems.count s = 0

namespace Device

open Kernel

variable {ρ δ α : Type} {cl : Client ρ δ α} {l s : ℕ} {dev : δ → Device} {inside entry : ρ → Bool}
  {waits : ρ → Option ℕ} {k k' : Kernel ρ δ} {lab : Label α} {start : ρ} {data : δ}
  {initialValue : ℕ → ℤ}

theorem Operates.cases {t : Tid} {d d' : Device} {b : Bool} {o : Call ρ} {w : Option ℕ}
    (h : d.Operates s t b o w d') :
    (b = true ∧ o = .P s ∧ w = some d.issuers.length ∧ d' = d.issue t) ∨
      o.about ≠ some (.semaphore s) ∧ w = none ∧ d' = d := by
  cases h with
  | request h => exact .inl ⟨h, rfl, rfl, rfl⟩
  | other o ho => exact .inr ⟨ho, rfl, rfl⟩

/-- The account of the requests. -/
structure Sound (dev : δ → Device) (waits : ρ → Option ℕ) (pcs : Tid → ρ) (d : δ) : Prop where
  accounted : (dev d).Accounted
  issued : ∀ t i, waits (pcs t) = some i → i < (dev d).issuers.length
  attended : ∀ i < (dev d).issuers.length, i ∈ (dev d).completed ∨ ∃ t, waits (pcs t) = some i

theorem counts (hcl : cl.Drives start l s dev inside entry waits) :
    cl.Counts s (fun d => (dev d).issuers) fun d => (dev d).completed.length where
  own := by
    intro t pc d view a o pc' d' hnext
    rcases (hcl.operates hnext).cases with ⟨-, rfl, -, hdev⟩ | ⟨ho, -, hdev⟩
    · simp only [hdev]
      exact ⟨by simp [Device.issue, Call.countP], rfl, rfl⟩
    · obtain ⟨hP, hV⟩ := Call.count_of_other ho
      simp [hdev, hP, hV]
  handler := by
    intro a d sems d' hhandler
    rcases hcl.handler hhandler with ⟨i, -, hdev, hcount⟩ | ⟨hdev, hcount⟩
    · simp only [hdev, hcount]
      exact ⟨rfl, by simp [Device.complete]⟩
    · simp [hdev, hcount]

variable (hcl : cl.Drives start l s dev inside entry waits) (hdev : dev data = .new)
  (hvalue : initialValue s = 0) (hr : Runs cl start data initialValue k)

include hcl

theorem waits_start : waits start = none := by
  cases hwaits : waits start with
  | none => rfl
  | some i =>
      have hin := (hcl.past hwaits).1
      rw [hcl.out] at hin
      cases hin

include hr

/-- A thread in the loop of `P` waits for a request. -/
theorem waits_of_retest {t : Tid} (hmem : .pRetest s ∈ k.stack t) :
    ∃ i, waits (k.pc t) = some i := by
  obtain ⟨pc, d, view, a, d', hnext⟩ := hr.pRetest hmem
  rcases (hcl.operates hnext).cases with ⟨-, -, hwaits, -⟩ | ⟨ho, -⟩
  · exact ⟨_, hwaits⟩
  · exact absurd rfl ho

/-- No thread waits while another one is in its own code in the section. -/
theorem eq_of_waits {t u : Tid} {i : ℕ} (hin : inside (k.pc t) = true) (hnil : k.stack t = [])
    (hu : waits (k.pc u) = some i) : u = t := by
  obtain ⟨huin, hupast⟩ := hcl.past hu
  exact hcl.guards.unique hcl.out hr huin hin (.inl hupast) (.inr hnil)

include hdev hvalue

/-- The device has nothing to do when a thread in the section is in its own code. -/
theorem Sound.idle (h : Sound dev waits k.pc k.data) {t : Tid} (hin : inside (k.pc t) = true)
    (hnil : k.stack t = []) : (dev k.data).pending = [] := by
  refine h.accounted.pending_eq_nil ?_
  refine (counts hcl).asked_le (by simp [hdev, new]) (by simp [hdev, new]) hvalue hr ?_
  intro u hmem
  obtain ⟨i, hi⟩ := waits_of_retest hcl hr hmem
  obtain rfl := eq_of_waits hcl hr hin hnil hi
  simp [hnil] at hmem

/-- A thread goes on after the interrupt of its own request. -/
theorem Sound.served (h : Sound dev waits k.pc k.data) {t : Tid} {i : ℕ}
    (hwaits : waits (k.pc t) = some i) (hnil : k.stack t = []) : i ∈ (dev k.data).completed :=
  h.accounted.completed (h.idle hcl hdev hvalue hr (hcl.past hwaits).1 hnil) (h.issued t i hwaits)

/-- When nobody waits, the semaphore has no units and the device has nothing to do. -/
theorem Sound.at_rest (h : Sound dev waits k.pc k.data) (hnobody : ∀ t, waits (k.pc t) = none) :
    k.value s = 0 ∧ (dev k.data).pending = [] := by
  have hall : ∀ i < (dev k.data).issuers.length, i ∈ (dev k.data).completed := by
    intro i hi
    refine (h.attended i hi).resolve_right ?_
    rintro ⟨t, ht⟩
    rw [hnobody t] at ht
    cases ht
  have hnone := h.accounted.pending_eq_nil (length_le_completed hall)
  refine ⟨?_, hnone⟩
  have hlength := h.accounted.length_eq
  rw [hnone, List.append_nil, List.length_range] at hlength
  refine (counts hcl).value_eq_zero (by simp [hdev, new]) (by simp [hdev, new]) hvalue hr ?_ hlength
  intro t hmem
  obtain ⟨i, hi⟩ := waits_of_retest hcl hr hmem
  rw [hnobody t] at hi
  cases hi

omit hr hdev hvalue in
/-- The own code of a thread that has seen the interrupt of its request. -/
theorem Sound.own {pcs : Tid → ρ} {t : Tid} {d d' : δ} {view : View} {a : α} {o : Call ρ} {pc : ρ}
    (h : Sound dev waits pcs d) (hserved : ∀ i, waits (pcs t) = some i → i ∈ (dev d).completed)
    (hnext : cl.next t (pcs t) d view a = some (o, pc, d')) :
    Sound dev waits (Function.update pcs t pc) d' := by
  have hstill : ∀ i < (dev d).issuers.length,
      i ∈ (dev d).completed ∨ ∃ u, waits (Function.update pcs t pc u) = some i := by
    intro i hi
    rcases h.attended i hi with hdone | ⟨u, hu⟩
    · exact .inl hdone
    · by_cases hut : u = t
      · exact .inl (hserved i (hut ▸ hu))
      · exact .inr ⟨u, by rwa [Function.update_of_ne hut]⟩
  rcases (hcl.operates hnext).cases with ⟨-, -, hpc, hdev⟩ | ⟨-, hpc, hdev⟩
  · refine ⟨?_, ?_, ?_⟩
    · rw [hdev]
      exact h.accounted.issue t
    · intro u i hi
      rw [hdev, Device.issue, List.length_append, List.length_singleton, Nat.lt_succ_iff]
      by_cases hut : u = t
      · rw [hut, Function.update_self, hpc] at hi
        exact (Option.some.inj hi).ge
      · rw [Function.update_of_ne hut] at hi
        exact (h.issued u i hi).le
    · intro i hi
      rw [hdev, Device.issue, List.length_append, List.length_singleton] at hi
      rw [hdev]
      rcases Nat.lt_succ_iff_lt_or_eq.1 hi with hi | rfl
      · exact hstill i hi
      · exact .inr ⟨t, by rw [Function.update_self, hpc]⟩
  · refine ⟨?_, ?_, ?_⟩
    · rw [hdev]
      exact h.accounted
    · intro u i hi
      rw [hdev]
      by_cases hut : u = t
      · rw [hut, Function.update_self, hpc] at hi
        cases hi
      · rw [Function.update_of_ne hut] at hi
        exact h.issued u i hi
    · rw [hdev]
      exact hstill

omit hr hdev hvalue in
theorem Sound.interrupt {pcs : Tid → ρ} {d d' : δ} {a : α} {sems : List ℕ}
    (h : Sound dev waits pcs d) (hhandler : cl.handler a d = some (sems, d')) :
    Sound dev waits pcs d' := by
  rcases hcl.handler hhandler with ⟨i, hi, hdev, -⟩ | ⟨hdev, -⟩
  · refine ⟨?_, ?_, ?_⟩
    · rw [hdev]
      exact h.accounted.complete hi
    · rw [hdev]
      exact h.issued
    · rw [hdev]
      intro j hj
      refine (h.attended j hj).imp_left fun hdone => ?_
      exact List.mem_append_left _ hdone
  · refine ⟨?_, ?_, ?_⟩
    · rw [hdev]
      exact h.accounted
    · rw [hdev]
      exact h.issued
    · rw [hdev]
      exact h.attended

/-- The account is right in every state of a run. -/
theorem sound : Sound dev waits k.pc k.data := by
  refine hr.program_invariant (I := Sound dev waits) hcl.fork ?_ ?_ ?_
  · refine ⟨?_, ?_, ?_⟩
    · rw [hdev]
      exact accounted_new
    · intro t i hi
      rw [waits_start hcl] at hi
      cases hi
    · intro i hi
      rw [hdev] at hi
      cases hi
  · intro k a o pc d hr hi hnil hnext
    refine hi.own hcl ?_ hnext
    intro i hwaits
    exact hi.served hcl hdev hvalue hr hwaits hnil
  · intro k a sems d hr hi hhandler
    exact hi.interrupt hcl hhandler

end Device

end Nachos
