import Nachos.Threads.Program
import Nachos.Threads.Condition
import Mathlib.Data.Set.Card

/-!
# Mailboxes

`Mailbox::Send` and `Mailbox::Receive` as a program over the kernel: any number
of threads call them in any order, and between these calls they may do anything
that does not touch the lock and the conditions of the mailbox. The code of a
thread between two kernel calls is one step, since the CPU cannot leave it there.
`stored` and `taken` are the values that have gone into the buffer and out of it.
-/

namespace Nachos

open Lib



namespace Mailbox

/-- Where a thread is in the code of the mailbox. -/
inductive Pc where
  | out
  /-- The loop test of `Send`. -/
  | sendTest (message : ℤ)
  /-- `Send` before its `Release`. -/
  | sendLeave
  /-- `Receive` after its `Acquire`. -/
  | receiveEnter
  /-- The loop test of `Receive`. -/
  | receiveTest
  deriving DecidableEq

/-- The members of a `Mailbox`, with the values that have passed through it. -/
structure Data where
  buffer : ℤ
  bufferRead : ℤ
  receivePres : ℤ
  stored : List ℤ
  taken : List ℤ

/-- The constructor of `Mailbox`. -/
def Data.new : Data where
  buffer := 0
  bufferRead := 0
  receivePres := 0
  stored := []
  taken := []

def lock : Obj := .user 0
def sendWait : Obj := .user 0
def receiveWait : Obj := .user 1

/-- The call does not touch the mailbox. -/
def foreign : Call Pc → Bool
  | .acquire l => l ≠ lock
  | .release l => l ≠ lock
  | .wait c l => c ≠ sendWait ∧ c ≠ receiveWait ∧ l ≠ lock
  | .signal c _ => c ≠ sendWait ∧ c ≠ receiveWait
  | .broadcast c _ => c ≠ sendWait ∧ c ≠ receiveWait
  | .fork _ _ start => start = .out
  | _ => true

/-- What a thread outside the mailbox does next, and what a handler does. -/
inductive Act where
  | send (message : ℤ)
  | receive
  | other (o : Call Pc)
  | handle (sems : List ℕ)

/-- `Mailbox::Send` after its `Acquire`. -/
def sendLoop (message : ℤ) (d : Data) : Call Pc × Pc × Data :=
  if d.bufferRead = 1 ∨ d.receivePres ≤ 0 then
    (.wait sendWait lock, .sendTest message, d)
  else
    (.signal receiveWait lock, .sendLeave,
      { d with
        buffer := message
        bufferRead := 1
        stored := d.stored ++ [message] })

/-- `Mailbox::Receive` from its loop on. -/
def receiveLoop (d : Data) : Call Pc × Pc × Data :=
  if d.bufferRead = 0 then
    (.wait receiveWait lock, .receiveTest, d)
  else
    (.release lock, .out,
      { d with
        buffer := 0
        bufferRead := 0
        receivePres := d.receivePres - 1
        taken := d.taken ++ [d.buffer] })

def next (pc : Pc) (d : Data) (a : Act) : Option (Call Pc × Pc × Data) :=
  match pc with
  | .out =>
      match a with
      | .send message => some (.acquire lock, .sendTest message, d)
      | .receive => some (.acquire lock, .receiveEnter, d)
      | .other o => if foreign o then some (o, .out, d) else none
      | .handle _ => none
  | .sendTest message => some (sendLoop message d)
  | .sendLeave => some (.release lock, .out, d)
  | .receiveEnter =>
      some (.signal sendWait lock, .receiveTest, { d with receivePres := d.receivePres + 1 })
  | .receiveTest => some (receiveLoop d)

/-- The program of the threads that use the mailbox. -/
def client : Client Pc Data Act where
  next _ pc d _ a := next pc d a
  handler a d :=
    match a with
    | .handle sems => some (sems, d)
    | _ => none

/-- The value in the buffer, if there is one. -/
def Data.slot (d : Data) : List ℤ := if d.bufferRead = 1 then [d.buffer] else []

/-- The `Receive` calls that have been made and have not taken a value yet. -/
def calls (k : Kernel Pc Data) : Finset Tid :=
  (Finset.range k.numThreads).filter fun t => k.pc t = .receiveEnter ∨ k.pc t = .receiveTest

/-- Those of them that have got the lock and gone on. -/
def entered (k : Kernel Pc Data) : Finset Tid :=
  (Finset.range k.numThreads).filter fun t => k.pc t = .receiveTest

/-- What is true of the mailbox in every state. A thread at the loop test of
`Receive` has started to receive and has not taken a value. -/
structure Sound (k : Kernel Pc Data) : Prop where
  flag : k.data.bufferRead = 0 ∨ k.data.bufferRead = 1
  fifo : k.data.taken ++ k.data.slot = k.data.stored
  counted : ∃ S : Finset Tid, (∀ t, t ∈ S ↔ k.pc t = .receiveTest) ∧
    k.data.receivePres = S.card
  fresh : ∀ t, k.numThreads ≤ t → k.pc t = .out
  waits : ∀ t, framesOf (.condition receiveWait) (k.stack t) ≠ [] → k.pc t = .receiveTest
  falling : ∀ t l old, .waitEnqueue receiveWait l old ∈ k.stack t → k.data.bufferRead = 0
  served : k.data.bufferRead = 1 → ∃ t, k.pc t = .receiveTest ∧
    t ∉ (k.queue (.condition receiveWait)).map Keyed.item

theorem Sound.init (initialValue : ℕ → ℤ) : Sound (Kernel.init .out Data.new initialValue) := by
  refine ⟨.inl rfl, rfl, ⟨∅, ?_, rfl⟩, fun _ _ => rfl, ?_, ?_, ?_⟩
  · simp [Kernel.init]
  · simp [Kernel.init]
  · simp [Kernel.init]
  · simp [Kernel.init, Data.new]

theorem about_receiveWait {o : Call Pc} (h : o.about = some (.condition receiveWait)) :
    o.isInner = false := by
  cases o <;> simp_all [Call.about, Call.isInner, receiveWait]

theorem not_inner_wait {l : Obj} (h : (Call.wait receiveWait l : Call Pc).isInner = true) :
    False := by
  simp [Call.isInner, receiveWait] at h

variable {k k' : Kernel Pc Data} {lab : Label Act}

open Kernel in
/-- The kernel routines of the threads inside the mailbox. -/
theorem Sound.quiet (h : Sound k) (ht : k.Tidy) (hp : k.Placed)
    (hinner : ∀ t o, .call o ∈ k.stack t → o.isInner = true)
    (hk' : step client k lab = .ok k') (hne : k.stack k.currentThread ≠ []) (hq : Quiet k k') :
    Sound k' := by
  obtain ⟨-, -, -, hnum, -⟩ := step_stack hp.current_lt hk'
  refine ⟨?_, ?_, ?_, ?_, ?_, ?_, ?_⟩
  · rw [hq.data]
    exact h.flag
  · rw [hq.data]
    exact h.fifo
  · rw [hq.data, hq.pc]
    exact h.counted
  · intro t hlt
    rw [hq.pc]
    exact h.fresh t (hnum.trans hlt)
  · intro t hfr
    rw [hq.pc]
    rcases step_stack_cases hp.current_lt hk' t with heq | ⟨rfl, hr⟩ | ⟨-, -, heq⟩
    · exact h.waits t (heq ▸ hfr)
    · by_contra hpc
      have hold : ∀ f ∈ k.stack k.currentThread, f.about ≠ some (.condition receiveWait) := by
        intro f hmem hf
        exact hpc (h.waits _ (List.ne_nil_of_mem (mem_framesOf.2 ⟨hmem, hf⟩)))
      obtain ⟨g, hg⟩ := List.exists_mem_of_ne_nil _ hfr
      obtain ⟨hmem, hg⟩ := mem_framesOf.1 hg
      obtain ⟨f, new, rest, hs, hs', hn⟩ := hr.frame_of_ne_nil hne
      rw [hs', List.mem_append] at hmem
      rcases hmem with hmem | hmem
      · rcases hn.about_condition hmem hg with hf | ⟨l, rfl⟩
        · exact hold f (by simp [hs]) hf
        · exact not_inner_wait (hinner k.currentThread (.wait receiveWait l) (by simp [hs]))
      · exact hold g (by simp [hs, hmem]) hg
    · simp [heq, framesOf, Frame.about] at hfr
  · intro t l old hmem
    rw [hq.data]
    rcases step_stack_cases hp.current_lt hk' t with heq | ⟨rfl, hr⟩ | ⟨-, -, heq⟩
    · exact h.falling t l old (heq ▸ hmem)
    · obtain ⟨f, new, rest, hs, hs', hn⟩ := hr.frame_of_ne_nil hne
      rw [hs', List.mem_append] at hmem
      rcases hmem with hmem | hmem
      · obtain rfl := hn.waitEnqueue_mem hmem
        exact (not_inner_wait (hinner k.currentThread (.wait receiveWait l) (by simp [hs]))).elim
      · exact h.falling k.currentThread l old (by simp [hs, hmem])
    · simp [heq] at hmem
  · intro hread
    rw [hq.data] at hread
    rw [hq.pc]
    obtain ⟨t, htest, hnot⟩ := h.served hread
    refine ⟨t, htest, ?_⟩
    rcases step_object (x := .condition receiveWait) (by simp) ht hp hk' with
      hs | ⟨o, k₀, hi, ho, he⟩ | ⟨f, rest, hs, hf, hne', -, hr⟩ | ⟨a, s, hx, -⟩
    · rw [hs.queue]
      exact hnot
    · cases hi with
      | own a o pc data hs hnext hpub => exact absurd hs hne
      | inner o rest hs =>
          have := hinner k.currentThread o (by simp [hs])
          rw [about_receiveWait ho] at this
          cases this
    · cases f with
      | waitEnqueue c l old =>
          obtain rfl : c = receiveWait := by simpa [Frame.about] using hf
          have := h.falling k.currentThread l old (by simp [hs])
          rw [hread] at this
          cases this
      | waitWoken c l old =>
          cases lab with
          | go =>
              cases hr
              exact hnot
          | _ => cases hr
      | waitReturn c l =>
          cases lab with
          | go =>
              simp only [resume, assertThen_ok, Except.ok.injEq] at hr
              obtain ⟨-, rfl⟩ := hr
              exact hnot
          | _ => cases hr
      | _ => simp [Frame.about] at hf
    · cases hx

open Kernel in
/-- A handler does not touch the mailbox. -/
theorem Sound.handle {a : Act} (h : Sound k) (hk' : handle client k a = .ok k') : Sound k' := by
  obtain ⟨sems, data, hdata, rfl⟩ := handle_eq hk'
  obtain rfl : data = k.data := by
    cases a <;> simp [client] at hdata
    exact hdata.2.symm
  obtain ⟨st, qu, v, lg, hfold⟩ := foldl_vBody_eq { k with data := k.data } sems
  have hs := same_foldl_vBody (x := .condition receiveWait) { k with data := k.data } (by simp)
    (by simp) sems
  have hq := hs.queue
  rw [hfold] at hq ⊢
  refine ⟨h.flag, h.fifo, h.counted, h.fresh, h.waits, h.falling, ?_⟩
  intro hread
  obtain ⟨t, ht, hnot⟩ := h.served hread
  refine ⟨t, ht, ?_⟩
  rw [hq]
  exact hnot

open Kernel in
/-- A call that a thread makes in its own code, with what remains to be shown of the
data. -/
theorem Sound.own {o : Call Pc} {pc : Pc} {data : Data} (h : Sound k) (hat : k.Atomic)
    (hp : k.Placed) (hs : k.stack k.currentThread = [])
    (hk' : (k.advance pc data).exec o = .ok k')
    (hstart : ∀ join start, o = .fork k.numThreads join start → start = .out)
    (hwait : ∀ l, o = .wait receiveWait l → pc = .receiveTest ∧ data.bufferRead = 0)
    (hflag : data.bufferRead = 0 ∨ data.bufferRead = 1)
    (hfifo : data.taken ++ data.slot = data.stored)
    (hcount : ∃ S : Finset Tid, (∀ t, t ∈ S ↔
      Function.update k.pc k.currentThread pc t = .receiveTest) ∧ data.receivePres = S.card)
    (hserved : data.bufferRead = 1 → ∃ t, Function.update k.pc k.currentThread pc t = .receiveTest ∧
      t ∉ (k'.queue (.condition receiveWait)).map Keyed.item) : Sound k' := by
  have hcur := hp.current_lt
  obtain ⟨hpc, hdata⟩ : k'.pc = Function.update k.pc k.currentThread pc ∧ k'.data = data := by
    rcases exec_program hk' with hq | ⟨join, start, ho, hpc, hdata, -⟩
    · exact ⟨hq.pc, hq.data⟩
    · refine ⟨?_, hdata⟩
      rw [hpc, hstart join start ho]
      refine Function.update_eq_self_iff.2 ?_
      simpa [hcur.ne'] using (h.fresh k.numThreads le_rfl).symm
  obtain ⟨new, hn, hpush⟩ := exec_pushes (k := k.advance pc data) hcur hk'
  have hstack : ∀ t, t ≠ k.currentThread →
      k'.stack t = [.setLevel .intOn] ∨ k'.stack t = k.stack t := by
    intro t ht
    rw [hpush.stack]
    simp only [advance_currentThread, Function.update_of_ne ht, grown]
    split
    · exact .inl rfl
    · exact .inr rfl
  have hown : k'.stack k.currentThread = new := by
    rw [hpush.stack]
    simp [hs]
  refine ⟨hdata ▸ hflag, hdata ▸ hfifo, ?_, ?_, ?_, ?_, ?_⟩
  · rw [hpc, hdata]
    exact hcount
  · intro t hlt
    have hlt' : k.numThreads ≤ t := hpush.numThreads.trans hlt
    rw [hpc, Function.update_of_ne (hcur.trans_le hlt').ne']
    exact h.fresh t hlt'
  · intro t hfr
    rw [hpc]
    by_cases ht : t = k.currentThread
    · subst ht
      rw [hown] at hfr
      obtain ⟨g, hg⟩ := List.exists_mem_of_ne_nil _ hfr
      obtain ⟨hmem, hg⟩ := mem_framesOf.1 hg
      rcases (Frame.Next.call o new hn).about_condition hmem hg with hf | ⟨l, hf⟩
      · cases hf
      · simp [(hwait l (Frame.call.inj hf)).1]
    · rw [Function.update_of_ne ht]
      rcases hstack t ht with heq | heq
      · simp [heq, framesOf, Frame.about] at hfr
      · exact h.waits t (heq ▸ hfr)
  · intro t l old hmem
    rw [hdata]
    by_cases ht : t = k.currentThread
    · subst ht
      rw [hown] at hmem
      exact (hwait l (hn.waitEnqueue_mem hmem)).2
    · rcases hstack t ht with heq | heq
      · simp [heq] at hmem
      · exact absurd (hat t _ l old (heq ▸ hmem)).current ht
  · rw [hdata, hpc]
    exact hserved

theorem Sound.count_keep {pc : Pc} (h : Sound k)
    (hpc : pc = .receiveTest ↔ k.pc k.currentThread = .receiveTest) :
    ∃ S : Finset Tid, (∀ t, t ∈ S ↔ Function.update k.pc k.currentThread pc t = .receiveTest) ∧
      k.data.receivePres = S.card := by
  obtain ⟨S, hS, hcard⟩ := h.counted
  refine ⟨S, ?_, hcard⟩
  intro t
  rw [hS t]
  by_cases ht : t = k.currentThread
  · subst ht
    simp [hpc]
  · simp [ht]

theorem Sound.count_enter (h : Sound k) (hpc : k.pc k.currentThread ≠ .receiveTest) :
    ∃ S : Finset Tid,
      (∀ t, t ∈ S ↔ Function.update k.pc k.currentThread .receiveTest t = .receiveTest) ∧
        k.data.receivePres + 1 = S.card := by
  obtain ⟨S, hS, hcard⟩ := h.counted
  refine ⟨insert k.currentThread S, ?_, ?_⟩
  · intro t
    rw [Finset.mem_insert, hS t]
    by_cases ht : t = k.currentThread <;> simp [ht]
  · rw [Finset.card_insert_of_notMem (by rwa [hS]), hcard]
    rfl

theorem Sound.count_leave {pc : Pc} (h : Sound k) (hpc : k.pc k.currentThread = .receiveTest)
    (hpc' : pc ≠ .receiveTest) :
    ∃ S : Finset Tid, (∀ t, t ∈ S ↔ Function.update k.pc k.currentThread pc t = .receiveTest) ∧
      k.data.receivePres - 1 = S.card := by
  obtain ⟨S, hS, hcard⟩ := h.counted
  have hmem : k.currentThread ∈ S := by rwa [hS]
  refine ⟨S.erase k.currentThread, ?_, ?_⟩
  · intro t
    rw [Finset.mem_erase, hS t]
    by_cases ht : t = k.currentThread
    · subst ht
      simp [hpc']
    · simp [ht]
  · have hpos := Finset.card_pos.2 ⟨_, hmem⟩
    rw [Finset.card_erase_of_mem hmem, hcard]
    omega

theorem Sound.served_keep {pc : Pc} (h : Sound k)
    (hq : k'.queue (.condition receiveWait) = k.queue (.condition receiveWait))
    (hpc : pc = .receiveTest ∨ k.pc k.currentThread ≠ .receiveTest)
    (hread : k.data.bufferRead = 1) :
    ∃ t, Function.update k.pc k.currentThread pc t = .receiveTest ∧
      t ∉ (k'.queue (.condition receiveWait)).map Keyed.item := by
  obtain ⟨t, ht, hnot⟩ := h.served hread
  refine ⟨t, ?_, hq ▸ hnot⟩
  by_cases htc : t = k.currentThread
  · subst htc
    simpa [ht] using hpc
  · simpa [htc] using ht

open Kernel in
/-- A value has been stored: the thread that `Signal` wakes will take it, or a
receiver that was not asleep. -/
theorem Sound.served_store {pc : Pc} (h : Sound k) (hp : k.Placed)
    (hq : k'.queue (.condition receiveWait) = (k.queue (.condition receiveWait)).tail)
    (hpc : k.pc k.currentThread ≠ .receiveTest) (hpres : 0 < k.data.receivePres) :
    ∃ t, Function.update k.pc k.currentThread pc t = .receiveTest ∧
      t ∉ (k'.queue (.condition receiveWait)).map Keyed.item := by
  have hother : ∀ t, k.pc t = .receiveTest →
      Function.update k.pc k.currentThread pc t = .receiveTest := by
    intro t ht
    have htc : t ≠ k.currentThread := by
      rintro rfl
      exact hpc ht
    simpa [htc] using ht
  cases hes : k.queue (.condition receiveWait) with
  | nil =>
      obtain ⟨S, hS, hcard⟩ := h.counted
      have hpos : 0 < S.card := by omega
      obtain ⟨t, ht⟩ := Finset.card_pos.1 hpos
      exact ⟨t, hother t ((hS t).1 ht), by simp [hq, hes]⟩
  | cons e es =>
      obtain ⟨f, hmem, hf⟩ := inLoop_of_mem hp (q := .condition receiveWait) (by simp)
        (t := e.item) (by simp [hes])
      have hwaits := h.waits e.item
        (List.ne_nil_of_mem (mem_framesOf.2 ⟨hmem, Frame.about_of_home hf⟩))
      refine ⟨e.item, hother _ hwaits, ?_⟩
      rw [hq, hes]
      exact hp.seated.front_not_mem hes

open Kernel in
theorem Sound.act {a : Act} {o : Call Pc} {pc : Pc} {data : Data} (h : Sound k) (hat : k.Atomic)
    (hp : k.Placed) (ht : k.Tidy) (hs : k.stack k.currentThread = [])
    (hnext : next (k.pc k.currentThread) k.data a = some (o, pc, data))
    (hk' : (k.advance pc data).exec o = .ok k') : Sound k' := by
  have hqueue : o.about ≠ some (.condition receiveWait) →
      k'.queue (.condition receiveWait) = k.queue (.condition receiveWait) := by
    intro ho
    exact (same_exec (k := k.advance pc data) (by simp) ho (ht.fresh _ le_rfl) hk').queue
  cases hpc : k.pc k.currentThread with
  | out =>
      rw [hpc] at hnext
      cases a with
      | send message =>
          simp only [next, Option.some.injEq, Prod.mk.injEq] at hnext
          obtain ⟨rfl, rfl, rfl⟩ := hnext
          exact h.own hat hp hs hk' (by simp) (by simp) h.flag h.fifo
            (h.count_keep (by simp [hpc]))
            (h.served_keep (hqueue (by simp [Call.about])) (.inr (by simp [hpc])))
      | receive =>
          simp only [next, Option.some.injEq, Prod.mk.injEq] at hnext
          obtain ⟨rfl, rfl, rfl⟩ := hnext
          exact h.own hat hp hs hk' (by simp) (by simp) h.flag h.fifo
            (h.count_keep (by simp [hpc]))
            (h.served_keep (hqueue (by simp [Call.about])) (.inr (by simp [hpc])))
      | other o' =>
          simp only [next] at hnext
          split at hnext
          · rename_i hforeign
            simp only [Option.some.injEq, Prod.mk.injEq] at hnext
            obtain ⟨rfl, rfl, rfl⟩ := hnext
            refine h.own hat hp hs hk' ?_ ?_ h.flag h.fifo (h.count_keep (by simp [hpc]))
              (h.served_keep (hqueue ?_) (.inr (by simp [hpc])))
            · rintro join start rfl
              simpa [foreign] using hforeign
            · rintro l rfl
              simp [foreign] at hforeign
            · cases o' <;> simp_all [Call.about, foreign]
          · cases hnext
      | handle sems => cases hnext
  | sendTest message =>
      rw [hpc] at hnext
      simp only [next, sendLoop, Option.some.injEq] at hnext
      split at hnext
      · simp only [Prod.mk.injEq] at hnext
        obtain ⟨rfl, rfl, rfl⟩ := hnext
        exact h.own hat hp hs hk' (by simp) (by simp [sendWait, receiveWait]) h.flag h.fifo
          (h.count_keep (by simp [hpc]))
          (h.served_keep (hqueue (by simp [Call.about, sendWait, receiveWait]))
            (.inr (by simp [hpc])))
      · rename_i hfree
        simp only [Prod.mk.injEq] at hnext
        obtain ⟨rfl, rfl, rfl⟩ := hnext
        rw [not_or, not_le] at hfree
        have hslot : k.data.slot = [] := by simp [Data.slot, hfree.1]
        have hfifo := h.fifo
        rw [hslot, List.append_nil] at hfifo
        refine h.own hat hp hs hk' (by simp) (by simp) (.inr rfl) ?_ (h.count_keep (by simp [hpc]))
          (fun _ => h.served_store hp ?_ (by simp [hpc]) hfree.2)
        · simp [Data.slot, hfifo]
        · simp only [exec, signal, assertThen_ok, Except.ok.injEq] at hk'
          obtain ⟨-, rfl⟩ := hk'
          exact signalOne_queue _ _
  | sendLeave =>
      rw [hpc] at hnext
      simp only [next, Option.some.injEq, Prod.mk.injEq] at hnext
      obtain ⟨rfl, rfl, rfl⟩ := hnext
      exact h.own hat hp hs hk' (by simp) (by simp) h.flag h.fifo (h.count_keep (by simp [hpc]))
        (h.served_keep (hqueue (by simp [Call.about])) (.inr (by simp [hpc])))
  | receiveEnter =>
      rw [hpc] at hnext
      simp only [next, Option.some.injEq, Prod.mk.injEq] at hnext
      obtain ⟨rfl, rfl, rfl⟩ := hnext
      exact h.own hat hp hs hk' (by simp) (by simp) h.flag h.fifo
        (h.count_enter (by simp [hpc]))
        (h.served_keep (hqueue (by simp [Call.about, sendWait, receiveWait])) (.inl rfl))
  | receiveTest =>
      rw [hpc] at hnext
      simp only [next, receiveLoop, Option.some.injEq] at hnext
      split at hnext
      · rename_i hempty
        simp only [Prod.mk.injEq] at hnext
        obtain ⟨rfl, rfl, rfl⟩ := hnext
        refine h.own hat hp hs hk' (by simp) (fun _ _ => ⟨rfl, hempty⟩) h.flag h.fifo
          (h.count_keep (by simp [hpc])) ?_
        intro hread
        rw [hempty] at hread
        cases hread
      · rename_i hfull
        simp only [Prod.mk.injEq] at hnext
        obtain ⟨rfl, rfl, rfl⟩ := hnext
        have hread : k.data.bufferRead = 1 := h.flag.resolve_left hfull
        have hfifo := h.fifo
        refine h.own hat hp hs hk' (by simp) (by simp) (.inl rfl) ?_
          (h.count_leave hpc (by simp)) (by simp)
        simpa [Data.slot, hread] using hfifo

open Kernel in
theorem Sound.step (h : Sound k) (hat : k.Atomic) (hp : k.Placed) (ht : k.Tidy)
    (hinner : ∀ t o, .call o ∈ k.stack t → o.isInner = true)
    (hk' : Kernel.step client k lab = .ok k') : Sound k' := by
  rcases step_program hinner hk' with
    ⟨a, o, pc, data, rfl, hs, hnext, -, he⟩ | ⟨a, rfl, hh⟩ | ⟨hne, hq⟩
  · exact h.act hat hp ht hs hnext he
  · exact h.handle hh
  · exact h.quiet ht hp hinner hk' hne hq

theorem runs_sound {initialValue : ℕ → ℤ}
    (h : Kernel.Runs client .out Data.new initialValue k) : Sound k :=
  Reachable.invariant (I := Sound) (.init initialValue)
    (fun _ _ _ hk hi hs => hi.step (Kernel.Runs.atomic hk) (Kernel.Runs.placed hk)
      (Kernel.Runs.tidy hk) (Kernel.Runs.inner hk) hs) h

theorem Sound.card_entered (h : Sound k) : k.data.receivePres = (entered k).card := by
  obtain ⟨S, hS, hcard⟩ := h.counted
  have heq : entered k = S := by
    ext t
    rw [entered, Finset.mem_filter, Finset.mem_range, hS t, and_iff_right_iff_imp]
    intro ht
    by_contra hlt
    rw [h.fresh t (not_lt.1 hlt)] at ht
    cases ht
  rw [heq, hcard]

/-- The values that `Receive` has taken, with the one in the buffer, are those that
`Send` has stored, in order; `receivePres` is the number of `Receive` calls that have
got the lock and not taken a value; and a value in the buffer has a `Receive`
call in progress that is not asleep on `receiveWait`. -/
theorem mailbox_delivers (initialValue : ℕ → ℤ) (k : Kernel Pc Data)
    (h : Kernel.Runs client .out Data.new initialValue k) :
    k.data.taken ++ k.data.slot = k.data.stored ∧
      k.data.receivePres = (entered k).card ∧
        (k.data.bufferRead = 1 → 1 ≤ k.data.receivePres ∧
          ∃ t ∈ entered k, t ∉ (k.queue (.condition receiveWait)).map Keyed.item) := by
  have hk := runs_sound h
  refine ⟨hk.fifo, hk.card_entered, ?_⟩
  intro hread
  obtain ⟨t, ht, hnot⟩ := hk.served hread
  have hmem : t ∈ entered k := by
    rw [entered, Finset.mem_filter, Finset.mem_range]
    refine ⟨?_, ht⟩
    by_contra hlt
    rw [hk.fresh t (not_lt.1 hlt)] at ht
    cases ht
  refine ⟨?_, t, hmem, hnot⟩
  have hpos := Finset.card_pos.2 ⟨t, hmem⟩
  rw [hk.card_entered]
  omega

/-- A thread sends 5 to another one that is asleep in `Receive`. -/
theorem mailbox_delivers_one :
    ∃ k, Kernel.Runs client .out Data.new (fun _ => 0) k ∧ k.data.bufferRead = 1 ∧
      ∃ t ∈ entered k, t ∉ (k.queue (.condition receiveWait)).map Keyed.item := by
  have hpass : passes (Kernel.step client) (Kernel.init .out Data.new fun _ => 0)
      [.act (.other (.fork 1 0 .out)), .go, .go, .go, .act .receive, .go, .go, .go, .go,
        .act .receive, .act .receive, .go, .go, .go, .go, .go, .go, .go,
        .act (.send 5), .go, .go, .go, .go, .act (.send 5)]
      (fun k => k.data.bufferRead = 1) = true := by
    decide +kernel
  obtain ⟨k, hk, hread⟩ := exists_of_passes _ hpass
  rw [decide_eq_true_eq] at hread
  exact ⟨k, hk, hread, ((mailbox_delivers _ k hk).2.2 hread).2⟩

/-- The main thread has got the lock in `Receive` when its time slice ends, and
another thread waits for the lock in `Receive`: both calls have been made, and
`receivePres` is 0. -/
theorem receivePres_counts_late :
    ∃ k, Kernel.Runs client .out Data.new (fun _ => 0) k ∧
      k.data.receivePres ≠ (calls k).card := by
  have hpass : passes (Kernel.step client) (Kernel.init .out Data.new fun _ => 0)
      [.act (.other (.fork 1 0 .out)), .go, .go, .go, .act .receive, .go, .go, .timer, .go,
        .go, .go, .go, .act .receive]
      (fun k => k.data.receivePres ≠ (calls k).card) = true := by
    decide +kernel
  obtain ⟨k, hk, hne⟩ := exists_of_passes _ hpass
  exact ⟨k, hk, by simpa using hne⟩

end Mailbox

end Nachos
