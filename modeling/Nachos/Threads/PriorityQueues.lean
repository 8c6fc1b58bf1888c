import Nachos.Threads.SortedList
import Nachos.Threads.Priorities

/-!
# Which thread leaves a queue first

Every queue of threads is a sorted list whose keys are the negated priorities that the threads had
when they were inserted. `Queues` has all of them, and `waiting` remembers for each queue the
insertions that have not been taken off again, the oldest first. A priority is any 32-bit integer.

`INT_MIN` is its own negation: its key is the smallest of all, and a thread with this priority
leaves before every other one. A removal is right exactly when no such thread waits, or no other.
-/

namespace Nachos

open Lib

/-- One insertion of a thread: its `ListElement`, and the priority that the thread had. -/
structure Insertion where
  element : ℕ
  thread : Tid
  priority : BitVec 32

namespace Insertion

def key (w : Insertion) : ℤ := negPriority w.priority.toInt

def keyed (w : Insertion) : Keyed ℕ := ⟨w.element, w.key⟩

end Insertion

structure Queues where
  list : QueueId → SortedList Tid
  priority : Tid → BitVec 32
  /-- A history variable: no routine reads it. -/
  waiting : QueueId → List Insertion

/-- The routines that put threads on a queue or take them off. The thread of `P`, `acquire` and
`wait` is the one that calls them and has to wait. -/
inductive QueueCall where
  | setPriority (t : Tid) (newPriority : BitVec 32)
  | readyToRun (t : Tid)
  | findNextToRun
  | P (s : ℕ) (t : Tid)
  | V (s : ℕ)
  | acquire (l : Obj) (t : Tid)
  | release (l : Obj)
  | wait (c : Obj) (t : Tid)
  | signal (c : Obj)

/-- The queue that the call takes a thread from. -/
def QueueCall.takes : QueueCall → Option QueueId
  | .findNextToRun => some .readyList
  | .V s => some (.semaphore s)
  | .release l => some (.lock l)
  | .signal c => some (.condition c)
  | _ => none

namespace Queues

/-- Every list is empty, and the priority of a new thread is 0. -/
def init : Queues where
  list _ := .new
  priority _ := 0
  waiting _ := []

/-- `queue->SortedInsert(t, t->getPriority()*-1)`. -/
def insert (Q : Queues) (q : QueueId) (t : Tid) : Except ListFault Queues :=
  match (Q.list q).sortedInsert (some t) (negPriority (Q.priority t).toInt) with
  | .error e => .error e
  | .ok l => .ok { Q with
      list := Function.update Q.list q l
      waiting := Function.update Q.waiting q
        (Q.waiting q ++ [⟨(Q.list q).made, t, Q.priority t⟩]) }

/-- `queue->Remove()`. -/
def remove (Q : Queues) (q : QueueId) : Option Tid × Queues :=
  ((Q.list q).remove.1, { Q with
    list := Function.update Q.list q (Q.list q).remove.2
    waiting := Function.update Q.waiting q
      ((Q.waiting q).filter fun w => some w.element != (Q.list q).first) })

/-- `Scheduler::ReadyToRun`. -/
def readyToRun (Q : Queues) (t : Tid) : Except ListFault Queues := Q.insert .readyList t

/-- `Scheduler::FindNextToRun`. -/
def findNextToRun (Q : Queues) : Option Tid × Queues := Q.remove .readyList

/-- `thread = queue->Remove(); if (thread != NULL) scheduler->ReadyToRun(thread);`. -/
def wakeOne (Q : Queues) (q : QueueId) : Except ListFault Queues :=
  match Q.remove q with
  | (none, Q') => .ok Q'
  | (some t, Q') => Q'.readyToRun t

def step (Q : Queues) : QueueCall → Except ListFault Queues
  | .setPriority t newPriority =>
      .ok { Q with priority := Function.update Q.priority t newPriority }
  | .readyToRun t => Q.readyToRun t
  | .findNextToRun => .ok Q.findNextToRun.2
  | .P s t => Q.insert (.semaphore s) t
  | .V s => Q.wakeOne (.semaphore s)
  | .acquire l t => Q.insert (.lock l) t
  | .release l => Q.wakeOne (.lock l)
  | .wait c t => Q.insert (.condition c) t
  | .signal c => Q.wakeOne (.condition c)

/-- Every older insertion has a lower priority than `w`, and no younger one has a higher one. -/
def Foremost (w : Insertion) (ws : List Insertion) : Prop :=
  ∃ us vs, ws = us ++ w :: vs ∧ (∀ v ∈ us, v.priority.toInt < w.priority.toInt) ∧
    ∀ v ∈ vs, v.priority.toInt ≤ w.priority.toInt

/-- A call that takes a thread takes the foremost one, and none only from an empty queue. -/
def Honours (Q : Queues) (c : QueueCall) : Prop :=
  ∀ q, c.takes = some q →
    Q.waiting q = [] ∧ (Q.remove q).1 = none ∨
    ∃ w, Foremost w (Q.waiting q) ∧ (Q.list q).first = some w.element ∧
      (Q.remove q).1 = some w.thread

/-- No thread on the queue was inserted with `INT_MIN`, or every one was. -/
def Negatable (Q : Queues) (c : QueueCall) : Prop :=
  ∀ q, c.takes = some q →
    (∀ w ∈ Q.waiting q, w.priority.toInt ≠ intMin) ∨ ∀ w ∈ Q.waiting q, w.priority.toInt = intMin

/-! ## One queue -/

theorem key_of_ne {w : Insertion} (h : w.priority.toInt ≠ intMin) : w.key = -w.priority.toInt := by
  have hle := w.priority.le_toInt
  have hlt := w.priority.toInt_lt
  unfold intMin at h
  rw [Insertion.key, negPriority, Int.bmod_def]
  omega

theorem key_of_eq {w : Insertion} (h : w.priority.toInt = intMin) : w.key = intMin := by
  rw [Insertion.key, h]
  decide

theorem key_le_intMin_iff {w : Insertion} : w.key ≤ intMin ↔ w.priority.toInt = intMin := by
  constructor
  · intro h
    by_contra hne
    rw [key_of_ne hne] at h
    have hlt := w.priority.toInt_lt
    unfold intMin at h
    omega
  · intro h
    exact (key_of_eq h).le

/-- The list has the insertions `ws`, in the order of their keys and then of their age. -/
structure Serves (l : SortedList Tid) (ws : List Insertion) (ns : List (Keyed ℕ)) : Prop where
  rep : l.Rep ns
  stable : Stable ns
  perm : ns.Perm (ws.map Insertion.keyed)
  aged : ws.Pairwise fun v w => v.element < w.element
  thread : ∀ w ∈ ws, (l.element w.element).item = some w.thread

variable {l : SortedList Tid} {ws : List Insertion} {ns : List (Keyed ℕ)}

theorem serves_new : Serves .new [] [] := ⟨SortedList.rep_new, .nil, .refl _, .nil, by simp⟩

theorem Serves.lt (h : Serves l ws ns) {w : Insertion} (hw : w ∈ ws) : w.element < l.made :=
  h.rep.lt w.keyed (h.perm.symm.subset (List.mem_map_of_mem hw))

theorem Serves.insert (h : Serves l ws ns) (t : Tid) (p : BitVec 32) :
    ∃ l', l.sortedInsert (some t) (negPriority p.toInt) = .ok l' ∧
      ∃ ns', Serves l' (ws ++ [⟨l.made, t, p⟩]) ns' := by
  obtain ⟨l', hok, hrep, -, hitem, hother⟩ := h.rep.sortedInsert (some t) (negPriority p.toInt)
  refine ⟨l', hok, _, hrep, h.stable.insert fun d hd => h.rep.lt d hd, ?_, ?_, ?_⟩
  · rw [List.map_append]
    exact (perm_sortedInsert _ ns).trans ((h.perm.cons _).trans
      (List.perm_append_singleton _ _).symm)
  · refine List.pairwise_append.2 ⟨h.aged, List.pairwise_singleton _ _, ?_⟩
    intro v hv w hw
    rw [List.mem_singleton.1 hw]
    exact h.lt hv
  · intro w hw
    rcases List.mem_append.1 hw with hw | hw
    · rw [hother _ (h.lt hw).ne, h.thread w hw]
    · rw [List.mem_singleton.1 hw, hitem]

/-- The first element is the insertion with the smallest key, and the oldest of these. -/
theorem Serves.front {n : Keyed ℕ} (h : Serves l ws (n :: ns)) :
    ∃ us w vs, ws = us ++ w :: vs ∧ w.keyed = n ∧ (∀ v ∈ us, w.key < v.key) ∧
      ∀ v ∈ vs, w.key ≤ v.key := by
  obtain ⟨w, hw, rfl⟩ := List.mem_map.1 (h.perm.subset List.mem_cons_self)
  obtain ⟨us, vs, rfl⟩ := List.append_of_mem hw
  have hbefore : ∀ v ∈ us ++ vs, v.element ≠ w.element →
      w.key < v.key ∨ w.key = v.key ∧ w.element < v.element := by
    intro v hv hne
    have hmem : v.keyed ∈ w.keyed :: ns := by
      refine h.perm.symm.subset (List.mem_map_of_mem ?_)
      rcases List.mem_append.1 hv with hv | hv
      · exact List.mem_append_left _ hv
      · exact List.mem_append_right _ (List.mem_cons_of_mem w hv)
    rcases List.mem_cons.1 hmem with heq | hmem
    · exact absurd (congrArg Keyed.item heq) hne
    · exact (List.pairwise_cons.1 h.stable).1 _ hmem
  have haged := List.pairwise_append.1 h.aged
  refine ⟨us, w, vs, rfl, rfl, ?_, ?_⟩
  · intro v hv
    have hold : v.element < w.element := haged.2.2 v hv w List.mem_cons_self
    rcases hbefore v (List.mem_append_left _ hv) hold.ne with hlt | ⟨-, hlt⟩
    · exact hlt
    · exact absurd hlt hold.not_gt
  · intro v hv
    have hyoung : w.element < v.element := (List.pairwise_cons.1 haged.2.1).1 v hv
    rcases hbefore v (List.mem_append_right _ hv) hyoung.ne' with hlt | ⟨heq, -⟩
    · exact hlt.le
    · exact heq.le

theorem Serves.remove_nil (h : Serves l ws []) :
    ws = [] ∧ l.first = none ∧ l.remove = (none, l) := by
  refine ⟨List.map_eq_nil_iff.1 h.perm.nil_eq.symm, h.rep.path, ?_⟩
  rw [SortedList.remove, h.rep.sortedRemove_nil]

/-- `Remove` takes the first element, and the other insertions stay. -/
theorem Serves.remove {w : Insertion} (h : Serves l ws (w.keyed :: ns)) (hw : w ∈ ws) :
    l.first = some w.element ∧ l.remove.1 = some w.thread ∧
      Serves l.remove.2 (ws.filter fun v => some v.element != l.first) ns := by
  have hfirst : l.first = some w.element := h.rep.path.1
  obtain ⟨l', hok, hrep, -, hother⟩ := h.rep.sortedRemove
  have hgone : ∀ d ∈ ns, d.item ≠ w.element := by
    rintro d hd (heq : d.item = w.keyed.item)
    exact (List.nodup_cons.1 h.rep.nodup).1 (heq ▸ List.mem_map_of_mem hd)
  refine ⟨hfirst, ?_, ?_⟩
  · rw [SortedList.remove, hok]
    exact h.thread w hw
  · rw [SortedList.remove, hok, hfirst]
    refine ⟨hrep, (List.pairwise_cons.1 h.stable).2, ?_, h.aged.filter _, ?_⟩
    · have hfilter := h.perm.filter fun d => some d.item != some w.element
      rwa [List.filter_cons_of_neg (by simp [Insertion.keyed]),
        List.filter_eq_self.2 (by simpa using hgone), List.filter_map] at hfilter
    · intro v hv
      obtain ⟨hv, hne⟩ := List.mem_filter.1 hv
      have hne' : v.element ≠ w.keyed.item := by simpa [Insertion.keyed] using hne
      rw [hother _ hne', h.thread v hv]

/-- The first insertion is the foremost one unless `INT_MIN` stands beside another priority. -/
theorem Serves.foremost_iff {w : Insertion} (h : Serves l ws (w.keyed :: ns)) (hw : w ∈ ws) :
    Foremost w ws ↔
      (∀ v ∈ ws, v.priority.toInt ≠ intMin) ∨ ∀ v ∈ ws, v.priority.toInt = intMin := by
  obtain ⟨us, w', vs, rfl, hkeyed, hus, hvs⟩ := h.front
  have haged := List.pairwise_append.1 h.aged
  have hold : ∀ v ∈ us, v.element < w'.element := fun v hv => haged.2.2 v hv w' List.mem_cons_self
  have hyoung : ∀ v ∈ vs, w'.element < v.element := (List.pairwise_cons.1 haged.2.1).1
  -- an element belongs to one insertion
  have hsame : w = w' := by
    have helement : w'.element = w.element := congrArg Keyed.item hkeyed
    rcases List.mem_append.1 hw with hw | hw
    · exact absurd helement (hold w hw).ne'
    · rcases List.mem_cons.1 hw with rfl | hw
      · rfl
      · exact absurd helement (hyoung w hw).ne
  subst hsame
  constructor
  · rintro ⟨us', vs', heq, hus', hvs'⟩
    by_cases hmin : ∃ v ∈ us ++ w :: vs, v.priority.toInt = intMin
    · right
      obtain ⟨v, hv, hp⟩ := hmin
      have hkey : w.key ≤ v.key := by
        rcases List.mem_append.1 hv with hv | hv
        · exact (hus v hv).le
        · rcases List.mem_cons.1 hv with rfl | hv
          · exact le_rfl
          · exact hvs v hv
      have hw' : w.priority.toInt = intMin :=
        key_le_intMin_iff.1 (hkey.trans (key_of_eq hp).le)
      have hle : ∀ v ∈ us ++ w :: vs, v.priority.toInt ≤ w.priority.toInt := by
        rw [heq]
        intro v hv
        rcases List.mem_append.1 hv with hv | hv
        · exact (hus' v hv).le
        · rcases List.mem_cons.1 hv with rfl | hv
          · exact le_rfl
          · exact hvs' v hv
      intro v hv
      refine le_antisymm ((hle v hv).trans hw'.le) ?_
      have hge := v.priority.le_toInt
      unfold intMin
      omega
    · left
      intro v hv hp
      exact hmin ⟨v, hv, hp⟩
  · intro hcond
    refine ⟨us, vs, rfl, ?_, ?_⟩
    · intro v hv
      have hlt := hus v hv
      rcases hcond with hne | heq
      · rw [key_of_ne (hne v (by simp [hv])), key_of_ne (hne w (by simp))] at hlt
        omega
      · rw [key_of_eq (heq v (by simp [hv])), key_of_eq (heq w (by simp))] at hlt
        exact absurd hlt (lt_irrefl _)
    · intro v hv
      have hle := hvs v hv
      rcases hcond with hne | heq
      · rw [key_of_ne (hne v (by simp [hv])), key_of_ne (hne w (by simp))] at hle
        omega
      · rw [heq v (by simp [hv]), heq w (by simp)]

/-! ## All queues -/

/-- Every list has the insertions that wait on it. -/
def Ordered (Q : Queues) : Prop := ∀ q, ∃ ns, Serves (Q.list q) (Q.waiting q) ns

theorem ordered_init : init.Ordered := fun _ => ⟨[], serves_new⟩

variable {Q : Queues}

theorem Ordered.insert (h : Q.Ordered) (q : QueueId) (t : Tid) :
    ∃ Q', Q.insert q t = .ok Q' ∧ Q'.Ordered := by
  obtain ⟨ns, hns⟩ := h q
  obtain ⟨l', hok, ns', hserves⟩ := hns.insert t (Q.priority t)
  refine ⟨_, by rw [Queues.insert, hok], ?_⟩
  intro r
  by_cases hr : r = q
  · subst hr
    exact ⟨ns', by simpa using hserves⟩
  · simpa [hr] using h r

theorem Ordered.remove (h : Q.Ordered) (q : QueueId) : (Q.remove q).2.Ordered := by
  intro r
  by_cases hr : r = q
  · subst hr
    simp only [Queues.remove, Function.update_self]
    obtain ⟨ns, hns⟩ := h r
    cases ns with
    | nil =>
        obtain ⟨hws, -, hrem⟩ := hns.remove_nil
        rw [hrem, hws, List.filter_nil]
        exact ⟨[], hws ▸ hns⟩
    | cons n ns =>
        obtain ⟨us, w, vs, hws, rfl, -, -⟩ := hns.front
        exact ⟨ns, (hns.remove (by simp [hws])).2.2⟩
  · simpa [Queues.remove, hr] using h r

theorem Ordered.wakeOne (h : Q.Ordered) (q : QueueId) :
    ∃ Q', Q.wakeOne q = .ok Q' ∧ Q'.Ordered := by
  have hrem := h.remove q
  unfold Queues.wakeOne
  split
  · rename_i Q' heq
    rw [heq] at hrem
    exact ⟨Q', rfl, hrem⟩
  · rename_i t Q' heq
    rw [heq] at hrem
    exact hrem.insert .readyList t

/-- Every call returns. -/
theorem Ordered.step (h : Q.Ordered) (c : QueueCall) : ∃ Q', Q.step c = .ok Q' ∧ Q'.Ordered := by
  cases c with
  | setPriority t p => exact ⟨_, rfl, h⟩
  | readyToRun t => exact h.insert .readyList t
  | findNextToRun => exact ⟨_, rfl, h.remove .readyList⟩
  | P s t => exact h.insert (.semaphore s) t
  | V s => exact h.wakeOne (.semaphore s)
  | acquire l t => exact h.insert (.lock l) t
  | release l => exact h.wakeOne (.lock l)
  | wait c t => exact h.insert (.condition c) t
  | signal c => exact h.wakeOne (.condition c)

theorem Ordered.honours_iff (h : Q.Ordered) (c : QueueCall) : Q.Honours c ↔ Q.Negatable c := by
  refine forall_congr' fun q => imp_congr_right fun _ => ?_
  obtain ⟨ns, hns⟩ := h q
  cases ns with
  | nil =>
      obtain ⟨hws, -, hrem⟩ := hns.remove_nil
      refine iff_of_true (.inl ⟨hws, by rw [Queues.remove, hrem]⟩) (.inl ?_)
      simp [hws]
  | cons n ns =>
      obtain ⟨us, w, vs, hws, rfl, -, -⟩ := hns.front
      have hw : w ∈ Q.waiting q := by simp [hws]
      obtain ⟨hfirst, hthread, -⟩ := hns.remove hw
      rw [← hns.foremost_iff hw]
      constructor
      · rintro (⟨hnil, -⟩ | ⟨v, hv, hfirst', -⟩)
        · simp [hnil] at hw
        · -- the two insertions have the same element
          rw [hfirst] at hfirst'
          have hv' : v ∈ Q.waiting q := by
            obtain ⟨us', vs', hws', -, -⟩ := hv
            simp [hws']
          have hnodup : ((Q.waiting q).map Insertion.element).Nodup :=
            List.pairwise_map.2 (hns.aged.imp fun {a b} hab => hab.ne)
          rwa [List.inj_on_of_nodup_map hnodup hw hv' (Option.some.inj hfirst')]
      · intro hfore
        exact .inr ⟨w, hfore, hfirst, hthread⟩

/-- Whatever the calls are, all of them return, and every removal takes the foremost thread if and
only if, at every removal, `INT_MIN` is the priority of no thread on the queue or of all. -/
theorem queues_honour_iff (calls : List QueueCall) :
    (∃ Q, runFrom step init calls = .ok Q) ∧
      (Meets step Honours init calls ↔ Meets step Negatable init calls) := by
  have hall : Meets step (fun _ _ => True) init calls := .of_forall fun _ _ _ => trivial
  constructor
  · obtain ⟨Q, hQ, -⟩ := exists_of_meets (I := Ordered) (fun Q c hQ _ => hQ.step c)
      ordered_init hall
    exact ⟨Q, hQ⟩
  · refine Meets.congr (I := Ordered) ?_ (fun Q c hQ _ => hQ.honours_iff c) ordered_init hall
    intro Q c Q' hQ _ hstep
    obtain ⟨Q'', hstep', hQ''⟩ := hQ.step c
    rw [hstep] at hstep'
    cases hstep'
    exact hQ''

/-- The thread 1 has the priority `INT_MIN`, and the thread 2 the priority 0. -/
def minFirst : List QueueCall :=
  [.setPriority 1 (BitVec.ofInt 32 intMin), .readyToRun 1, .readyToRun 2, .findNextToRun]

/-- The thread 1 leaves first. -/
theorem intMin_leaves_first : ¬ Meets step Honours init minFirst := by
  intro h
  have hlast := (((h.2 _ rfl).2 _ rfl).2 _ rfl).1 .readyList rfl
  rcases hlast with ⟨hnil, -⟩ | ⟨w, ⟨us, vs, hws, -, hvs⟩, hfirst, -⟩
  · cases hnil
  · change [⟨0, 1, BitVec.ofInt 32 intMin⟩, ⟨1, 2, 0⟩] = us ++ w :: vs at hws
    have hw : 0 = w.element := Option.some.inj hfirst
    cases us with
    | nil =>
        obtain ⟨rfl, rfl⟩ := List.cons.inj hws
        have hle := hvs ⟨1, 2, 0⟩ List.mem_cons_self
        exact absurd hle (by decide)
    | cons u us =>
        have hmem : w ∈ [(⟨1, 2, 0⟩ : Insertion)] := by
          rw [(List.cons.inj hws).2]
          simp
        rw [List.mem_singleton.1 hmem] at hw
        cases hw

end Queues

end Nachos
