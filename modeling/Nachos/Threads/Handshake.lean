import Nachos.Threads.Condition
import Nachos.Threads.Program

/-!
# What `Finish` and `Join` touch

The lock and the condition of a `Thread` are touched by its own `Finish` and by the calls of
`Join` on it. `Frame.Touches me t` says that the frame of `me` works on the members of `t`;
the frames that do come from a call of `Join` on `t` or, on the stack of `t`, of `Finish`.
The effects of a step on `readyToJoin`, on the condition of a `Thread` and on the part of the
history that `Finish` and `Join` write are read off the topmost frame.
-/

namespace Nachos

open Lib



/-- The object is the lock or the condition of `t`. -/
def Obj.isOf (t : Tid) : Obj → Prop
  | .ofThread s => s = t
  | .user _ => False

def Call.Touches {ρ : Type} (t : Tid) : Call ρ → Prop
  | .acquire l => l.isOf t
  | .release l => l.isOf t
  | .wait c l => c.isOf t ∨ l.isOf t
  | .signal c l => c.isOf t ∨ l.isOf t
  | .broadcast c l => c.isOf t ∨ l.isOf t
  | _ => False

/-- The frame of the thread `me` works on the members of `t`. -/
def Frame.Touches {ρ : Type} (me t : Tid) : Frame ρ → Prop
  | .call o => o.Touches t
  | .acquireRetest l => l.isOf t
  | .acquireReturn l => l.isOf t
  | .waitEnqueue c l _ => c.isOf t ∨ l.isOf t
  | .waitWoken c l _ => c.isOf t ∨ l.isOf t
  | .waitReturn c l => c.isOf t ∨ l.isOf t
  | .finishLoop => me = t
  | .finishDone => me = t
  | .finished => me = t
  | .joinBody s => s = t
  | .joinReturn s => s = t
  | _ => False

theorem Call.not_touches {ρ : Type} {o : Call ρ} (h : o.isPublic = true) (t : Tid) :
    ¬ o.Touches t := by
  cases o with
  | acquire l => cases l <;> simp_all [isPublic, Touches, Obj.isOf]
  | release l => cases l <;> simp_all [isPublic, Touches, Obj.isOf]
  | wait c l => cases c <;> cases l <;> simp_all [isPublic, Touches, Obj.isOf]
  | signal c l => cases c <;> cases l <;> simp_all [isPublic, Touches, Obj.isOf]
  | broadcast c l => cases c <;> cases l <;> simp_all [isPublic, Touches, Obj.isOf]
  | _ => exact id

theorem Call.Next.touches {ρ : Type} {me t : Tid} {o : Call ρ} {new : List (Frame ρ)}
    (h : o.Next me new) {g : Frame ρ} (hmem : g ∈ new) (hg : g.Touches me t) :
    o.Touches t ∨ o = .join t ∨ o = .finish ∧ me = t := by
  cases h <;> grind [Frame.Touches, Call.Touches, Obj.isOf]

/-- A frame that touches the members of `t` comes from one that does. -/
theorem Frame.Next.touches {ρ : Type} {me t : Tid} {f : Frame ρ} {new : List (Frame ρ)}
    (h : f.Next me new) (hf : ∀ o, f = .call o → o.isInner = true) {g : Frame ρ} (hmem : g ∈ new)
    (hg : g.Touches me t) : f.Touches me t := by
  cases h with
  | call o new h =>
      have hinner := hf o rfl
      rcases h.touches hmem hg with ho | rfl | ⟨rfl, -⟩
      · exact ho
      · cases hinner
      · cases hinner
  | _ => grind [Frame.Touches, Call.Touches, Obj.isOf]

theorem Frame.Next.waitWoken_mem {ρ : Type} {me : Tid} {f : Frame ρ} {new : List (Frame ρ)}
    {c l : Obj} {old : IntStatus} (h : f.Next me new) (hmem : .waitWoken c l old ∈ new) :
    f = .waitEnqueue c l old := by
  cases h with
  | call o new h => cases h <;> simp at hmem
  | _ => simp_all

/-- A thread waits on the condition of a `Thread` with the lock of the same `Thread`. -/
def Frame.Paired {ρ : Type} : Frame ρ → Prop
  | .call (.wait (.ofThread t) l) => l = .ofThread t
  | .waitEnqueue (.ofThread t) l _ => l = .ofThread t
  | .waitWoken (.ofThread t) l _ => l = .ofThread t
  | _ => True

theorem Call.Next.paired {ρ : Type} {me : Tid} {o : Call ρ} {new : List (Frame ρ)}
    (h : o.Next me new) (ho : (Frame.call o).Paired) : ∀ g ∈ new, g.Paired := by
  cases h with
  | wait c l old => cases c <;> simp_all [Frame.Paired]
  | _ => simp [Frame.Paired]

theorem Frame.Next.paired {ρ : Type} {me : Tid} {f : Frame ρ} {new : List (Frame ρ)}
    (h : f.Next me new) (hf : f.Paired) : ∀ g ∈ new, g.Paired := by
  cases h with
  | call o new h => exact h.paired hf
  | waitEnqueue c l old => cases c <;> simp_all [Frame.Paired]
  | _ => simp [Frame.Paired]

theorem Rewrites.paired {ρ : Type} {me : Tid} {fs gs : List (Frame ρ)} (h : Rewrites me fs gs)
    (hfs : ∀ f ∈ fs, f.Paired) : ∀ g ∈ gs, g.Paired := by
  cases h with
  | own o new ho h =>
      refine h.paired ?_
      cases o with
      | wait c l => cases c <;> simp_all [Frame.Paired, Call.isPublic]
      | _ => trivial
  | frame f new rest h =>
      intro g hg
      rcases List.mem_append.1 hg with hg | hg
      · exact h.paired (hfs f (by simp)) g hg
      · exact hfs g (by simp [hg])

/-- The part of the history that `Finish` and `Join` write. -/
def deeds (es : List Event) : List Event := es.filter fun e => e.about = none

theorem mem_deeds {e : Event} {es : List Event} (he : e.about = none) : e ∈ deeds es ↔ e ∈ es := by
  simp [deeds, he]

theorem deeds_cons_other {e : Event} {es : List Event} (he : e.about ≠ none) :
    deeds (e :: es) = deeds es := by
  simp [deeds, he]

/-- What the history records of `Finish` and `Join` when the frame of `me` is run. -/
def Frame.deeds {ρ : Type} (me : Tid) : Frame ρ → List Event
  | .call .finish => [.finishCalled me]
  | .call (.join t) => [.joinCalled me t]
  | .finishDone => [.finishCompleted me]
  | .joinReturn t => [.joinReturned me t]
  | _ => []

namespace Kernel

variable {ρ δ α : Type}

/-! ## The marks that `Finish` and `Join` leave -/

/-- What the current thread does to the marks of `Finish` and `Join` when it runs the frame. -/
def mark (k : Kernel ρ δ) : Frame ρ → Kernel ρ δ
  | .call .finish => k.note (.finishCalled k.currentThread)
  | .call (.join t) => k.note (.joinCalled k.currentThread t)
  | .joinBody t => { k with readyToJoin := Function.update k.readyToJoin t true }
  | .joinReturn t => k.note (.joinReturned k.currentThread t)
  | .finishDone =>
      { k with threadToBeDestroyed := some k.currentThread }.note (.finishCompleted k.currentThread)
  | .afterSwitch =>
      match k.threadToBeDestroyed with
      | none => k
      | some t =>
          { k with
            deleted := Function.update k.deleted t true
            threadToBeDestroyed := none }
  | _ => k

/-- The marks are the same. -/
structure Unmarked (k k' : Kernel ρ δ) : Prop where
  deeds : deeds k'.log = deeds k.log
  readyToJoin : k'.readyToJoin = k.readyToJoin
  threadToBeDestroyed : k'.threadToBeDestroyed = k.threadToBeDestroyed
  deleted : k'.deleted = k.deleted

theorem Unmarked.refl (k : Kernel ρ δ) : Unmarked k k := ⟨rfl, rfl, rfl, rfl⟩

theorem Unmarked.trans {k k₁ k₂ : Kernel ρ δ} (h : Unmarked k k₁) (h' : Unmarked k₁ k₂) :
    Unmarked k k₂ where
  deeds := h'.deeds.trans h.deeds
  readyToJoin := h'.readyToJoin.trans h.readyToJoin
  threadToBeDestroyed := h'.threadToBeDestroyed.trans h.threadToBeDestroyed
  deleted := h'.deleted.trans h.deleted

theorem unmarked_sleep {k k' : Kernel ρ δ} (h : k.sleep = .ok k') : Unmarked k k' := by
  simp only [sleep, assertThen_ok, Except.ok.injEq] at h
  obtain ⟨-, rfl⟩ := h
  exact ⟨rfl, rfl, rfl, rfl⟩

theorem unmarked_note (k : Kernel ρ δ) {e : Event} (he : e.about ≠ none) : Unmarked k (k.note e) :=
  ⟨deeds_cons_other he, rfl, rfl, rfl⟩

theorem unmarked_acquireLoop {k k' : Kernel ρ δ} {l : Obj} (h : k.acquireLoop l = .ok k') :
    Unmarked k k' := by
  unfold acquireLoop at h
  split at h
  · have h₀ : Unmarked k ((k.insert (.lock l) k.currentThread).push (.acquireRetest l)) :=
      ⟨rfl, rfl, rfl, rfl⟩
    exact h₀.trans (unmarked_sleep h)
  · cases h
    exact ⟨deeds_cons_other (by simp [Event.about]), rfl, rfl, rfl⟩

theorem unmarked_pLoop {k k' : Kernel ρ δ} {s : ℕ} (h : k.pLoop s = .ok k') : Unmarked k k' := by
  unfold pLoop at h
  split at h
  · have h₀ : Unmarked k ((k.insert (.semaphore s) k.currentThread).push (.pRetest s)) :=
      ⟨rfl, rfl, rfl, rfl⟩
    exact h₀.trans (unmarked_sleep h)
  · cases h
    exact ⟨deeds_cons_other (by simp [Event.about]), rfl, rfl, rfl⟩

theorem unmarked_vBody (k : Kernel ρ δ) (s : ℕ) : Unmarked k (k.vBody s) := by
  obtain ⟨st, qu, hv⟩ := k.vBody_eq s
  rw [hv]
  exact ⟨deeds_cons_other (by simp [Event.about]), rfl, rfl, rfl⟩

theorem unmarked_foldl_vBody (k : Kernel ρ δ) (sems : List ℕ) :
    Unmarked k (sems.foldl vBody k) := by
  induction sems generalizing k with
  | nil => exact .refl k
  | cons s sems ih => exact (unmarked_vBody k s).trans (ih _)

theorem unmarked_signalOne (k : Kernel ρ δ) (c : Obj) : Unmarked k (k.signalOne c) := by
  unfold signalOne remove
  cases k.queue (.condition c) with
  | nil => exact .refl k
  | cons e es => exact ⟨deeds_cons_other (by simp [Event.about]), rfl, rfl, rfl⟩

theorem unmarked_broadcastLoop (k : Kernel ρ δ) (c : Obj) (n : ℕ) :
    Unmarked k (broadcastLoop c n k) := by
  induction n generalizing k with
  | zero => exact .refl k
  | succ n ih => exact (unmarked_signalOne k c).trans (ih _)

theorem unmarked_exec {k k' : Kernel ρ δ} {o : Call ρ} (h : k.exec o = .ok k') :
    Unmarked (k.mark (.call o)) k' := by
  have hdis : ∀ f, Unmarked k (k.disable.push f) := fun _ => ⟨rfl, rfl, rfl, rfl⟩
  cases o with
  | P s => exact (hdis _).trans (unmarked_pLoop h)
  | V s =>
      cases h
      exact (hdis _).trans (unmarked_vBody _ s)
  | acquire l =>
      simp only [exec, acquire, assertThen_ok] at h
      have h₀ : Unmarked k ((k.disable.push (.acquireReturn l)).push (.setLevel k.level)) :=
        ⟨rfl, rfl, rfl, rfl⟩
      exact h₀.trans (unmarked_acquireLoop h.2)
  | release l =>
      simp only [exec, release, assertThen_ok, Except.ok.injEq] at h
      obtain ⟨-, rfl⟩ := h
      obtain ⟨st, qu, hw⟩ := ((k.disable.push (.setLevel k.level)).note
        (.releaseCalled l k.currentThread)).wakeOne_eq (.lock l)
      rw [hw]
      exact ⟨deeds_cons_other (by simp [Event.about]), rfl, rfl, rfl⟩
  | wait c l =>
      simp only [exec, wait, assertThen_ok, Except.ok.injEq] at h
      obtain ⟨-, rfl⟩ := h
      exact ⟨deeds_cons_other (by simp [Event.about]), rfl, rfl, rfl⟩
  | signal c l =>
      simp only [exec, signal, assertThen_ok, Except.ok.injEq] at h
      obtain ⟨-, rfl⟩ := h
      exact unmarked_signalOne k c
  | broadcast c l =>
      simp only [exec, broadcast, assertThen_ok, Except.ok.injEq] at h
      obtain ⟨-, rfl⟩ := h
      exact unmarked_broadcastLoop k c _
  | yield =>
      cases h
      unfold yield findNextToRun remove
      cases k.disable.queue .readyList with
      | nil => exact ⟨rfl, rfl, rfl, rfl⟩
      | cons e es => exact ⟨rfl, rfl, rfl, rfl⟩
  | fork t join start =>
      simp only [exec, fork] at h
      split at h
      · cases h
        exact ⟨rfl, rfl, rfl, rfl⟩
      · cases h
  | join t =>
      simp only [exec, joinCall, assertThen_ok, Except.ok.injEq] at h
      obtain ⟨-, rfl⟩ := h
      exact ⟨rfl, rfl, rfl, rfl⟩
  | _ =>
      cases h
      exact ⟨rfl, rfl, rfl, rfl⟩

theorem unmarked_handle {cl : Client ρ δ α} {k k' : Kernel ρ δ} {a : α}
    (h : handle cl k a = .ok k') : Unmarked k k' := by
  obtain ⟨sems, data, -, rfl⟩ := handle_eq h
  have h₀ : Unmarked k { k with data := data } := ⟨rfl, rfl, rfl, rfl⟩
  exact h₀.trans (unmarked_foldl_vBody _ sems)

theorem unmarked_resume {cl : Client ρ δ α} {k k' : Kernel ρ δ} {f : Frame ρ} {lab : Label α}
    (hcall : ∀ o, f ≠ .call o) (h : resume cl k f lab = .ok k') : Unmarked (k.mark f) k' := by
  have hpush : ∀ f, Unmarked k (k.push f) := fun _ => ⟨rfl, rfl, rfl, rfl⟩
  rcases resume_cases h with rfl | ⟨rfl, rfl, rfl⟩ | ⟨a, rfl, rfl | rfl, hh⟩
  · cases f with
    | call o => exact absurd rfl (hcall o)
    | setLevel now =>
        cases h
        unfold Kernel.setLevel
        split
        · exact ⟨rfl, rfl, rfl, rfl⟩
        · exact ⟨rfl, rfl, rfl, rfl⟩
    | sleepLoop =>
        obtain ⟨e, es, -, rfl⟩ := sleepLoop_go h
        exact ⟨rfl, rfl, rfl, rfl⟩
    | afterSwitch =>
        rcases afterSwitch_cases h with ⟨heq, rfl⟩ | ⟨t, heq, rfl⟩
        · simp only [mark, heq]
          exact .refl k'
        · simp only [mark, heq]
          exact .refl _
    | pRetest s => exact unmarked_pLoop h
    | acquireRetest l => exact unmarked_acquireLoop h
    | acquireReturn l =>
        cases h
        exact unmarked_note k (by simp [Event.about])
    | waitEnqueue c l old =>
        simp only [resume, waitEnqueue, sleep, assertThen_ok, Except.ok.injEq] at h
        obtain ⟨-, rfl⟩ := h
        exact ⟨deeds_cons_other (by simp [Event.about]), rfl, rfl, rfl⟩
    | waitReturn c l =>
        simp only [resume, assertThen_ok, Except.ok.injEq] at h
        obtain ⟨-, rfl⟩ := h
        exact unmarked_note k (by simp [Event.about])
    | finishLoop =>
        cases h
        unfold finishLoop
        split
        · exact ⟨rfl, rfl, rfl, rfl⟩
        · split
          · exact ⟨rfl, rfl, rfl, rfl⟩
          · exact ⟨rfl, rfl, rfl, rfl⟩
    | finishDone =>
        simp only [resume, finishDone, sleep, assertThen_ok, Except.ok.injEq] at h
        obtain ⟨-, rfl⟩ := h
        exact ⟨rfl, rfl, rfl, rfl⟩
    | finished => cases h
    | _ =>
        cases h
        exact ⟨rfl, rfl, rfl, rfl⟩
  · exact ⟨rfl, rfl, rfl, rfl⟩
  · exact (hpush .firing).trans (unmarked_handle hh)
  · exact (hpush .sleepLoop).trans (unmarked_handle hh)

/-- The marks do not depend on the rest of the state. -/
theorem unmarked_mark (k k₀ : Kernel ρ δ) (hlog : k₀.log = k.log)
    (hready : k₀.readyToJoin = k.readyToJoin)
    (hdoomed : k₀.threadToBeDestroyed = k.threadToBeDestroyed) (hdel : k₀.deleted = k.deleted)
    (hcur : k₀.currentThread = k.currentThread) (f : Frame ρ) :
    Unmarked (k.mark f) (k₀.mark f) := by
  have hsame : Unmarked k k₀ := ⟨by rw [hlog], hready, hdoomed, hdel⟩
  have hnote : ∀ e, Unmarked (k.note e) (k₀.note e) :=
    fun e => ⟨by simp [hlog], hready, hdoomed, hdel⟩
  cases f with
  | call o =>
      cases o with
      | finish =>
          simp only [mark, hcur]
          exact hnote _
      | join t =>
          simp only [mark, hcur]
          exact hnote _
      | _ => exact hsame
  | joinBody t => exact ⟨hsame.deeds, by simp [mark, hready], hdoomed, hdel⟩
  | joinReturn t =>
      simp only [mark, hcur]
      exact hnote _
  | finishDone => exact ⟨by simp [mark, hlog, hcur], hready, by simp [mark, hcur], hdel⟩
  | afterSwitch =>
      simp only [mark, hdoomed]
      split
      · exact hsame
      · exact ⟨hsame.deeds, hready, rfl, by simp [hdel]⟩
  | _ => exact hsame

/-- A step leaves the marks of the frame that the current thread runs, where a call in its
own code counts as a frame. -/
theorem step_mark {cl : Client ρ δ α} {k k' : Kernel ρ δ} {lab : Label α}
    (h : step cl k lab = .ok k') :
    (∃ f rest, k.stack k.currentThread = f :: rest ∧ Unmarked (k.mark f) k') ∨
      ∃ a o pc data, lab = .act a ∧ k.stack k.currentThread = [] ∧
        cl.next k.currentThread (k.pc k.currentThread) k.data k.view a = some (o, pc, data) ∧
          o.isPublic = true ∧ (k.advance pc data).exec o = .ok k' ∧
            Unmarked (k.mark (.call o)) k' := by
  rcases step_cases h with ⟨o, k₀, hi, he⟩ | ⟨f, rest, hs, hcall, hr⟩
  · cases hi with
    | own a o pc data hs hnext ho =>
        have hm := unmarked_mark k (k.advance pc data) rfl rfl rfl rfl rfl (.call o)
        exact .inr ⟨a, o, pc, data, rfl, hs, hnext, ho, he, hm.trans (unmarked_exec he)⟩
    | inner o rest hs =>
        have hm := unmarked_mark k (k.setStack rest) rfl rfl rfl rfl rfl (.call o)
        exact .inl ⟨.call o, rest, hs, hm.trans (unmarked_exec he)⟩
  · have hm := unmarked_mark k (k.setStack rest) rfl rfl rfl rfl rfl f
    exact .inl ⟨f, rest, hs, hm.trans (unmarked_resume hcall hr)⟩

theorem Unmarked.mem_log {k k' : Kernel ρ δ} (h : Unmarked k k') {e : Event} (he : e.about = none) :
    e ∈ k'.log ↔ e ∈ k.log := by
  rw [← mem_deeds he, h.deeds, mem_deeds he]

theorem mark_log (k : Kernel ρ δ) (f : Frame ρ) :
    (k.mark f).log = f.deeds k.currentThread ++ k.log := by
  cases f with
  | call o => cases o <;> rfl
  | afterSwitch =>
      simp only [mark, Frame.deeds]
      split <;> rfl
  | _ => rfl

theorem mem_mark_log (k : Kernel ρ δ) (f : Frame ρ) (e : Event) :
    e ∈ (k.mark f).log ↔ e ∈ f.deeds k.currentThread ∨ e ∈ k.log := by
  rw [mark_log, List.mem_append]

/-- What `Finish` and `Join` write into the history stays there. -/
theorem mem_log_of_step {cl : Client ρ δ α} {k k' : Kernel ρ δ} {lab : Label α}
    (h : step cl k lab = .ok k') {e : Event} (he : e.about = none) (hmem : e ∈ k.log) :
    e ∈ k'.log := by
  rcases step_mark h with ⟨f, rest, -, hm⟩ | ⟨a, o, pc, data, -, -, -, -, -, hm⟩
  · exact (hm.mem_log he).2 ((mem_mark_log k _ e).2 (.inr hmem))
  · exact (hm.mem_log he).2 ((mem_mark_log k _ e).2 (.inr hmem))

/-- Only the own code of a thread calls `Finish` and `Join`. -/
theorem mem_log_of_frame {cl : Client ρ δ α} {k k' : Kernel ρ δ} {lab : Label α}
    (hinner : ∀ t o, .call o ∈ k.stack t → o.isInner = true) (h : step cl k lab = .ok k')
    (hs : k.stack k.currentThread ≠ []) {e : Event}
    (he : (∃ u t, e = .joinCalled u t) ∨ ∃ t, e = .finishCalled t) (hmem : e ∈ k'.log) :
    e ∈ k.log := by
  have habout : e.about = none := by
    rcases he with ⟨u, t, rfl⟩ | ⟨t, rfl⟩
    · rfl
    · rfl
  rcases step_mark h with ⟨f, rest, hs', hm⟩ | ⟨a, o, pc, data, -, hs', -⟩
  · rw [hm.mem_log habout, mem_mark_log] at hmem
    refine hmem.resolve_left ?_
    cases f with
    | call o =>
        have ho := hinner k.currentThread o (by simp [hs'])
        cases o <;> simp_all [Frame.deeds, Call.isInner]
    | finishDone => rcases he with ⟨u, t, rfl⟩ | ⟨t, rfl⟩ <;> simp [Frame.deeds]
    | joinReturn s => rcases he with ⟨u, t, rfl⟩ | ⟨t, rfl⟩ <;> simp [Frame.deeds]
    | _ => simp [Frame.deeds]
  · exact absurd hs' hs

/-- A step adds one event of `Finish` or `Join` to the history at most. -/
theorem deeds_of_step {cl : Client ρ δ α} {k k' : Kernel ρ δ} {lab : Label α}
    (h : step cl k lab = .ok k') :
    deeds k'.log = deeds k.log ∨ ∃ e, deeds k'.log = e :: deeds k.log := by
  have hf : ∀ f, Unmarked (k.mark f) k' →
      deeds k'.log = deeds k.log ∨ ∃ e, deeds k'.log = e :: deeds k.log := by
    intro f hm
    rw [hm.deeds, mark_log]
    cases f with
    | call o =>
        cases o with
        | finish => exact .inr ⟨_, rfl⟩
        | join t => exact .inr ⟨_, rfl⟩
        | _ => exact .inl rfl
    | finishDone => exact .inr ⟨_, rfl⟩
    | joinReturn t => exact .inr ⟨_, rfl⟩
    | _ => exact .inl rfl
  rcases step_mark h with ⟨f, rest, -, hm⟩ | ⟨a, o, pc, data, -, -, -, -, -, hm⟩
  · exact hf f hm
  · exact hf (.call o) hm

/-- An event that is in every history with `e` comes before `e`. -/
theorem Runs.before {cl : Client ρ δ α} {start : ρ} {data : δ} {initialValue : ℕ → ℤ}
    {k : Kernel ρ δ} (h : Runs cl start data initialValue k) {e e' : Event} (he : e.about = none)
    (he' : e'.about = none) (hne : e' ≠ e) {Q : Kernel ρ δ → Prop}
    (hQ : ∀ k lab k', Runs cl start data initialValue k → step cl k lab = .ok k' → e ∈ k.log →
      Q k' → Q k)
    (hall : ∀ k, Runs cl start data initialValue k → Q k → e ∈ k.log → e' ∈ k.log) (hq : Q k)
    {es : List Event} (hes : e :: es <:+ k.log) : e' ∈ es := by
  have hdeeds : e :: deeds es <:+ deeds k.log := by
    have := hes.filter fun e => decide (e.about = none)
    simpa [deeds, he] using this
  suffices hI : ∀ ds, e :: ds <:+ deeds k.log → e' ∈ ds from (mem_deeds he').1 (hI _ hdeeds)
  refine Reachable.invariant (I := fun k => Q k → ∀ ds, e :: ds <:+ deeds k.log → e' ∈ ds)
    ?_ ?_ h hq
  · intro _ ds hds
    simp [init, deeds] at hds
  · intro k lab k' hk hi hs hq ds hds
    have hold : e :: ds <:+ deeds k.log → e' ∈ ds := by
      intro hds
      have hmem : e ∈ k.log := (mem_deeds he).1 (hds.subset (by simp))
      exact hi (hQ k lab k' hk hs hmem hq) ds hds
    rcases deeds_of_step hs with heq | ⟨d, heq⟩
    · exact hold (heq ▸ hds)
    · rw [heq, List.suffix_cons_iff] at hds
      rcases hds with hds | hds
      · cases hds
        have hmem : e ∈ k'.log := (mem_deeds he).1 (heq ▸ by simp)
        have hmem' := (mem_deeds he').2 (hall k' (hk.tail hs) hq hmem)
        rw [heq] at hmem'
        exact (List.mem_cons.1 hmem').resolve_left hne
      · exact hold hds

/-- A thread that is to be destroyed, or has been, has come to the end of `Finish`. -/
def Buried (k : Kernel ρ δ) : Prop :=
  ∀ t, k.threadToBeDestroyed = some t ∨ k.deleted t = true → .finishCompleted t ∈ k.log

theorem Buried.mark {k : Kernel ρ δ} (h : k.Buried) (f : Frame ρ) : (k.mark f).Buried := by
  intro t ht
  rw [mem_mark_log]
  cases f with
  | call o => cases o <;> exact .inr (h t ht)
  | finishDone =>
      rcases ht with ht | ht
      · cases ht
        exact .inl (by simp [Frame.deeds])
      · exact .inr (h t (.inr ht))
  | afterSwitch =>
      refine .inr (h t ?_)
      simp only [Kernel.mark] at ht
      split at ht
      · exact ht
      · rename_i s hs
        rcases ht with ht | ht
        · cases ht
        · by_cases hts : t = s
          · exact .inl (hts ▸ hs)
          · exact .inr (by simpa [hts] using ht)
  | _ => exact .inr (h t ht)

theorem Buried.unmarked {k k' : Kernel ρ δ} (h : k.Buried) (hm : Unmarked k k') : k'.Buried := by
  intro t ht
  rw [hm.threadToBeDestroyed, hm.deleted] at ht
  exact (hm.mem_log rfl).2 (h t ht)

theorem Runs.buried {cl : Client ρ δ α} {start : ρ} {data : δ} {initialValue : ℕ → ℤ}
    {k : Kernel ρ δ} (h : Runs cl start data initialValue k) : k.Buried := by
  refine Reachable.invariant (I := Buried) ?_ ?_ h
  · intro t ht
    simp [init] at ht
  · intro k lab k' _ hi hs
    rcases step_mark hs with ⟨f, rest, -, hm⟩ | ⟨a, o, pc, data, -, -, -, -, -, hm⟩
    · exact (hi.mark f).unmarked hm
    · exact (hi.mark (.call o)).unmarked hm

/-! ## Who touches the members of a thread -/

theorem Runs.paired {cl : Client ρ δ α} {start : ρ} {data : δ} {initialValue : ℕ → ℤ}
    {k : Kernel ρ δ} (h : Runs cl start data initialValue k) (t : Tid) :
    ∀ f ∈ k.stack t, f.Paired :=
  h.stacks (S := fun _ fs => ∀ f ∈ fs, f.Paired) (by simp) (by simp [Frame.Paired])
    (fun _ _ _ hr => hr.paired) t

/-- After a step, a frame that touches the members of `t` has been there, or comes from
one that has, or from a call that the thread has just made. -/
theorem touches_of_step {cl : Client ρ δ α} {k k' : Kernel ρ δ} {lab : Label α} {t u : Tid}
    {f : Frame ρ} (hcur : k.currentThread < k.numThreads)
    (hinner : ∀ t o, .call o ∈ k.stack t → o.isInner = true) (h : step cl k lab = .ok k')
    (hne : u = k.currentThread → k.stack u ≠ []) (hmem : f ∈ k'.stack u) (hf : f.Touches u t) :
    ∃ g ∈ k.stack u, g.Touches u t := by
  rcases step_stack_cases hcur h u with heq | ⟨rfl, hr⟩ | ⟨-, -, heq⟩
  · exact ⟨f, heq ▸ hmem, hf⟩
  · obtain ⟨g, new, rest, hs, hs', hn⟩ := hr.frame_of_ne_nil (hne rfl)
    rw [hs'] at hmem
    rw [hs]
    rcases List.mem_append.1 hmem with hmem | hmem
    · refine ⟨g, by simp, hn.touches ?_ hmem hf⟩
      rintro o rfl
      exact hinner k.currentThread o (by simp [hs])
    · exact ⟨f, by simp [hmem], hf⟩
  · rw [heq, List.mem_singleton] at hmem
    subst hmem
    cases hf

/-- Only a thread that has called `Join` on `t`, or `t` inside `Finish`, touches the
members of `t`. -/
def Exclusive (k : Kernel ρ δ) : Prop :=
  ∀ u t f, f ∈ k.stack u → f.Touches u t →
    .joinCalled u t ∈ k.log ∨ u = t ∧ .finishCalled t ∈ k.log

theorem Exclusive.step {cl : Client ρ δ α} {k k' : Kernel ρ δ} {lab : Label α} (h : k.Exclusive)
    (hp : k.Placed) (hinner : ∀ t o, .call o ∈ k.stack t → o.isInner = true)
    (hk' : Kernel.step cl k lab = .ok k') : k'.Exclusive := by
  intro u t f hmem hf
  have hold : (∃ g ∈ k.stack u, g.Touches u t) →
      .joinCalled u t ∈ k'.log ∨ u = t ∧ .finishCalled t ∈ k'.log := by
    rintro ⟨g, hmem, hg⟩
    exact (h u t g hmem hg).imp (mem_log_of_step hk' rfl) (And.imp_right (mem_log_of_step hk' rfl))
  by_cases hne : u = k.currentThread → k.stack u ≠ []
  · exact hold (touches_of_step hp.current_lt hinner hk' hne hmem hf)
  · obtain ⟨rfl, hs⟩ : u = k.currentThread ∧ k.stack u = [] := by simpa using hne
    rcases step_mark hk' with ⟨g, rest, hs', -⟩ | ⟨a, o, pc, data, -, -, -, hpub, he, hm⟩
    · simp [hs] at hs'
    · obtain ⟨new, hn, hpush⟩ := exec_pushes (k := k.advance pc data) hp.current_lt he
      have hs' : k'.stack k.currentThread = new := by
        rw [hpush.stack]
        simp [hs]
      rw [hs'] at hmem
      rcases hn.touches hmem hf with ho | rfl | ⟨rfl, hcur⟩
      · exact absurd ho (o.not_touches hpub t)
      · exact .inl ((hm.mem_log rfl).2 (by simp [Kernel.mark]))
      · have hcur' : k.currentThread = t := hcur
        exact .inr ⟨hcur', (hm.mem_log rfl).2 (by simp [Kernel.mark, hcur'])⟩

theorem Runs.exclusive {cl : Client ρ δ α} {start : ρ} {data : δ} {initialValue : ℕ → ℤ}
    {k : Kernel ρ δ} (h : Runs cl start data initialValue k) : k.Exclusive := by
  refine Reachable.invariant (I := Exclusive) ?_ ?_ h
  · intro u t f hmem
    cases hmem
  · intro k lab k' hk hi hs
    exact hi.step (Runs.placed hk) (Runs.inner hk) hs

/-- Nobody calls `Join` on itself. -/
theorem Runs.joinCalled_ne {cl : Client ρ δ α} {start : ρ} {data : δ} {initialValue : ℕ → ℤ}
    {k : Kernel ρ δ} (h : Runs cl start data initialValue k) {u t : Tid}
    (hmem : .joinCalled u t ∈ k.log) : u ≠ t := by
  refine Reachable.invariant (I := fun k => .joinCalled u t ∈ k.log → u ≠ t)
    (by simp [init]) ?_ h hmem
  intro k lab k' hk hi hs hmem
  by_cases hst : k.stack k.currentThread = []
  · rcases step_mark hs with ⟨f, rest, hs', -⟩ | ⟨a, o, pc, data, -, -, -, -, he, hm⟩
    · simp [hst] at hs'
    · rw [hm.mem_log rfl, mem_mark_log] at hmem
      rcases hmem with hmem | hmem
      · cases o with
        | join s =>
            obtain ⟨rfl, rfl⟩ : u = k.currentThread ∧ t = s := by simpa [Frame.deeds] using hmem
            simp only [exec, joinCall, assertThen_ok] at he
            exact he.1.2.2.1
        | _ => simp [Frame.deeds] at hmem
      · exact hi hmem
  · exact hi (mem_log_of_frame (Runs.inner hk) hs hst (.inl ⟨u, t, rfl⟩) hmem)

/-- A thread comes to the end of `Finish` after it has called it. -/
theorem Runs.finishCalled {cl : Client ρ δ α} {start : ρ} {data : δ} {initialValue : ℕ → ℤ}
    {k : Kernel ρ δ} (h : Runs cl start data initialValue k) {t : Tid}
    (hmem : .finishCompleted t ∈ k.log) : .finishCalled t ∈ k.log := by
  refine Reachable.invariant (I := fun k => .finishCompleted t ∈ k.log → .finishCalled t ∈ k.log)
    (by simp [init]) ?_ h hmem
  intro k lab k' hk hi hs hmem
  refine mem_log_of_step hs rfl ?_
  rcases step_mark hs with ⟨f, rest, hst, hm⟩ | ⟨a, o, pc, data, -, -, -, -, -, hm⟩
  · rw [hm.mem_log rfl, mem_mark_log] at hmem
    rcases hmem with hmem | hmem
    · cases f with
      | finishDone =>
          obtain rfl : t = k.currentThread := by simpa [Frame.deeds] using hmem
          rcases Runs.exclusive hk k.currentThread k.currentThread .finishDone (by simp [hst]) rfl
            with hj | ⟨-, hf⟩
          · exact absurd rfl (Runs.joinCalled_ne hk hj)
          · exact hf
      | call o => cases o <;> simp [Frame.deeds] at hmem
      | _ => simp [Frame.deeds] at hmem
    · exact hi hmem
  · rw [hm.mem_log rfl, mem_mark_log] at hmem
    rcases hmem with hmem | hmem
    · cases o <;> simp [Frame.deeds] at hmem
    · exact hi hmem

/-! ## The condition of a thread -/

/-- The queue of the condition of `t` changes when the current thread signals it or goes
to sleep on it. -/
theorem step_condition {cl : Client ρ δ α} {k k' : Kernel ρ δ} {lab : Label α} {t : Tid}
    (hp : k.Placed) (ht : k.Tidy) (hinner : ∀ t o, .call o ∈ k.stack t → o.isInner = true)
    (hk' : step cl k lab = .ok k') :
    k'.queue (.condition (.ofThread t)) = k.queue (.condition (.ofThread t)) ∨
      (∃ l rest, k.stack k.currentThread = .call (.signal (.ofThread t) l) :: rest ∧
        k'.queue (.condition (.ofThread t)) = (k.queue (.condition (.ofThread t))).tail) ∨
        ∃ l old rest, k.stack k.currentThread = .waitEnqueue (.ofThread t) l old :: rest ∧
          ∀ u, u ∈ (k'.queue (.condition (.ofThread t))).map Keyed.item ↔
            u = k.currentThread ∨ u ∈ (k.queue (.condition (.ofThread t))).map Keyed.item := by
  rcases step_object (x := .condition (.ofThread t)) (by simp) ht hp hk' with
    hs | ⟨o, k₀, hi, ho, he⟩ | ⟨f, rest, hs, hf, -, -, hr⟩ | ⟨a, s, hx, -⟩
  · exact .inl hs.queue
  · cases hi with
    | own a o pc data hs hnext hpub =>
        cases o <;> simp_all [Call.about, Call.isPublic]
    | inner o rest hs =>
        have ho' := hinner k.currentThread o (by simp [hs])
        cases o with
        | wait c l =>
            simp only [exec, wait, assertThen_ok, Except.ok.injEq] at he
            obtain ⟨-, rfl⟩ := he
            exact .inl rfl
        | signal c l =>
            obtain rfl : c = .ofThread t := by simpa [Call.about] using ho
            simp only [exec, signal, assertThen_ok, Except.ok.injEq] at he
            obtain ⟨-, rfl⟩ := he
            exact .inr (.inl ⟨l, rest, hs, signalOne_queue _ _⟩)
        | broadcast c l => cases ho'
        | _ => simp [Call.about] at ho
  · cases f with
    | waitEnqueue c l old =>
        obtain rfl : c = .ofThread t := by simpa [Frame.about] using hf
        cases lab with
        | go =>
            simp only [resume, waitEnqueue, sleep, assertThen_ok, Except.ok.injEq] at hr
            obtain ⟨-, rfl⟩ := hr
            exact .inr (.inr ⟨l, old, rest, hs, fun u => mem_insert_queue⟩)
        | _ => cases hr
    | waitWoken c l old =>
        cases lab with
        | go =>
            cases hr
            exact .inl rfl
        | _ => cases hr
    | waitReturn c l =>
        cases lab with
        | go =>
            simp only [resume, assertThen_ok, Except.ok.injEq] at hr
            obtain ⟨-, rfl⟩ := hr
            exact .inl rfl
        | _ => cases hr
    | _ => simp [Frame.about] at hf
  · cases hx

/-! ## The holder of a lock -/

theorem acquireLoop_cases {k k' : Kernel ρ δ} {l : Obj} {u : Tid} (h : k.acquireLoop l = .ok k')
    (hheld : k'.threadHeld l = some u) : k.threadHeld l = some u ∨ u = k.currentThread := by
  unfold acquireLoop at h
  split at h
  · simp only [sleep, assertThen_ok, Except.ok.injEq] at h
    obtain ⟨-, rfl⟩ := h
    exact .inl hheld
  · cases h
    exact .inr (by simpa [eq_comm] using hheld)

/-- A thread that has just got the lock has run the loop test of `Acquire`. -/
theorem acquired_of_step {cl : Client ρ δ α} {k k' : Kernel ρ δ} {lab : Label α} {l : Obj}
    {u : Tid} (hp : k.Placed) (ht : k.Tidy) (hk' : step cl k lab = .ok k')
    (hheld : k'.threadHeld l = some u) :
    k.threadHeld l = some u ∨ u = k.currentThread ∧
      (k.stack u = [] ∧ (∀ t, l ≠ .ofThread t) ∨ ∃ rest, k.stack u = .call (.acquire l) :: rest ∨
        k.stack u = .acquireRetest l :: rest) := by
  rcases step_object (x := .lock l) (by simp) ht hp hk' with
    hs | ⟨o, k₀, hi, ho, he⟩ | ⟨f, rest, hs, hf, -, -, hr⟩ | ⟨a, s, hx, -⟩
  · exact .inl ((hs.threadHeld l rfl).symm.trans hheld)
  · cases o with
    | acquire l' =>
        obtain rfl : l' = l := by simpa [Call.about] using ho
        simp only [exec, acquire, assertThen_ok] at he
        rcases acquireLoop_cases he.2 hheld with h | h
        · exact .inl ((hi.same.threadHeld l' rfl).symm.trans h)
        · obtain rfl : u = k.currentThread := h.trans hi.currentThread_eq
          refine .inr ⟨rfl, ?_⟩
          cases hi with
          | own a o pc data hs hnext hpub =>
              refine .inl ⟨hs, ?_⟩
              rintro t rfl
              cases hpub
          | inner o rest hs => exact .inr ⟨rest, .inl hs⟩
    | release l' =>
        obtain rfl : l' = l := by simpa [Call.about] using ho
        simp only [exec, release, assertThen_ok, Except.ok.injEq] at he
        obtain ⟨-, rfl⟩ := he
        simp at hheld
    | _ => simp [Call.about] at ho
  · cases f with
    | acquireRetest l' =>
        obtain rfl : l' = l := by simpa [Frame.about] using hf
        cases lab with
        | go =>
            rcases acquireLoop_cases hr hheld with h | rfl
            · exact .inl h
            · exact .inr ⟨rfl, .inr ⟨rest, .inr hs⟩⟩
        | _ => cases hr
    | acquireReturn l' =>
        cases lab with
        | go =>
            cases hr
            exact .inl hheld
        | _ => cases hr
    | _ => simp [Frame.about] at hf
  · cases hx

/-- Only a thread that has called `Join` on `t`, or `t` inside `Finish`, holds the lock of
`t`. -/
theorem Runs.holder {cl : Client ρ δ α} {start : ρ} {data : δ} {initialValue : ℕ → ℤ}
    {k : Kernel ρ δ} (h : Runs cl start data initialValue k) {t u : Tid}
    (hheld : k.threadHeld (.ofThread t) = some u) :
    .joinCalled u t ∈ k.log ∨ u = t ∧ .finishCalled t ∈ k.log := by
  refine Reachable.invariant (I := fun k => k.threadHeld (.ofThread t) = some u →
    .joinCalled u t ∈ k.log ∨ u = t ∧ .finishCalled t ∈ k.log) (by simp [init]) ?_ h hheld
  intro k lab k' hk hi hs hheld
  have hold : .joinCalled u t ∈ k.log ∨ u = t ∧ .finishCalled t ∈ k.log := by
    rcases acquired_of_step (Runs.placed hk) (Runs.tidy hk) hs hheld with
      h | ⟨rfl, ⟨-, h⟩ | ⟨rest, h | h⟩⟩
    · exact hi h
    · exact absurd rfl (h t)
    · exact Runs.exclusive hk _ t (.call (.acquire (.ofThread t))) (by simp [h]) rfl
    · exact Runs.exclusive hk _ t (.acquireRetest (.ofThread t)) (by simp [h]) rfl
  exact hold.imp (mem_log_of_step hs rfl) (And.imp_right (mem_log_of_step hs rfl))

/-- A thread asleep in `Wait` does not hold the lock, and neither does one that has
released it there. -/
def Unheld (k : Kernel ρ δ) : Prop :=
  ∀ u c l old, .waitWoken c l old ∈ k.stack u ∨
    .waitEnqueue c l old ∈ k.stack u ∧ (∀ rest, k.stack u ≠ .call (.release l) :: rest) →
      k.threadHeld l ≠ some u

theorem released_of_top {cl : Client ρ δ α} {k k' : Kernel ρ δ} {lab : Label α} {l : Obj}
    {rest : List (Frame ρ)} (hk' : step cl k lab = .ok k')
    (hs : k.stack k.currentThread = .call (.release l) :: rest) : k'.threadHeld l = none := by
  have he := exec_of_top hk' hs
  simp only [exec, release, assertThen_ok, Except.ok.injEq] at he
  obtain ⟨-, rfl⟩ := he
  simp

theorem not_acquire_of_wait {f : Frame ρ} {fs : List (Frame ρ)} {c l : Obj} {old : IntStatus}
    (hp : (f :: fs).Pairwise Above)
    (hmem : .waitWoken c l old ∈ f :: fs ∨ .waitEnqueue c l old ∈ f :: fs) :
    f ≠ .call (.acquire l) ∧ f ≠ .acquireRetest l := by
  have habove := (List.pairwise_cons.1 hp).1
  rcases hmem with hmem | hmem
  · rcases List.mem_cons.1 hmem with rfl | hmem
    · simp
    · rcases habove _ hmem with rfl | rfl <;> simp
  · rcases List.mem_cons.1 hmem with rfl | hmem
    · simp
    · rcases habove _ hmem with hcalm | rfl
      · constructor
        · rintro rfl
          exact hcalm
        · rintro rfl
          exact hcalm
      · simp

theorem Unheld.step {cl : Client ρ δ α} {k k' : Kernel ρ δ} {lab : Label α} (h : k.Unheld)
    (hp : k.Placed) (ht : k.Tidy) (hk' : Kernel.step cl k lab = .ok k') : k'.Unheld := by
  intro u c l old hmem hheld
  -- the thread has not got the lock in this step, and has not had it before
  have hno : ¬ (.waitWoken c l old ∈ k.stack u ∨
      .waitEnqueue c l old ∈ k.stack u ∧ ∀ rest, k.stack u ≠ .call (.release l) :: rest) := by
    intro hold
    have hmem' : .waitWoken c l old ∈ k.stack u ∨ .waitEnqueue c l old ∈ k.stack u :=
      hold.imp_right And.left
    have habove := ht.above u
    rcases acquired_of_step hp ht hk' hheld with h' | ⟨-, ⟨hs, -⟩ | ⟨rest, hs | hs⟩⟩
    · exact h u c l old hold h'
    · simp [hs] at hmem'
    · rw [hs] at hmem' habove
      exact (not_acquire_of_wait habove hmem').1 rfl
    · rw [hs] at hmem' habove
      exact (not_acquire_of_wait habove hmem').2 rfl
  rcases step_stack_cases hp.current_lt hk' u with heq | ⟨rfl, hr⟩ | ⟨-, -, heq⟩
  · rw [heq] at hmem
    exact hno hmem
  · generalize hfs : k.stack k.currentThread = fs at hr hno
    generalize hgs : k'.stack k.currentThread = gs at hr hmem
    cases hr with
    | own o new ho hn =>
        rcases hmem with hmem | ⟨hmem, hhead⟩
        · cases (Frame.Next.call o _ hn).waitWoken_mem hmem
        · cases hn.waitEnqueue_mem hmem
          cases hn
          exact hhead _ rfl
    | frame f new rest hn =>
        rcases hmem with hmem | ⟨hmem, hhead⟩
        · rcases List.mem_append.1 hmem with hmem | hmem
          · cases hn.waitWoken_mem hmem
            exact hno (.inr ⟨by simp, by simp⟩)
          · exact hno (.inl (by simp [hmem]))
        · rcases List.mem_append.1 hmem with hmem | hmem
          · cases hn.waitEnqueue_mem hmem
            cases hn with
            | call _ _ hn =>
                cases hn
                exact hhead _ rfl
          · have hrel : f ≠ .call (.release l) := by
              rintro rfl
              rw [released_of_top hk' hfs] at hheld
              cases hheld
            exact hno (.inr ⟨by simp [hmem], fun rest' heq => hrel (List.cons.inj heq).1⟩)
  · simp [heq] at hmem

theorem Runs.unheld {cl : Client ρ δ α} {start : ρ} {data : δ} {initialValue : ℕ → ℤ}
    {k : Kernel ρ δ} (h : Runs cl start data initialValue k) : k.Unheld := by
  refine Reachable.invariant (I := Unheld) ?_ ?_ h
  · intro u c l old hmem
    simp [init] at hmem
  · intro k lab k' hk hi hs
    exact hi.step (Runs.placed hk) (Runs.tidy hk) hs

end Kernel

end Nachos
