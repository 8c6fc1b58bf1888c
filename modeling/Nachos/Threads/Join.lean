import Nachos.Threads.Handshake

/-!
# The handshake of `Finish` and `Join`

`JoinAt` and `FinishAt` say where a thread is in its call of `Join` on `t`, and where `t` is in
its `Finish`, by the frames on its stack; a move from one place to the next happens when
the topmost frame is run. `Handshake` relates the two places with `readyToJoin` and with
the queue of the condition, for a thread that one other thread joins.
-/

namespace Nachos

open Lib



/-! ## The stacks -/

/-- The frames of a thread inside `Acquire` on `l`. -/
inductive Acquiring {ρ : Type} (l : Obj) : List (Frame ρ) → Prop
  | call (pre : List (Frame ρ)) (h : ∀ g ∈ pre, g.Calm) : Acquiring l (pre ++ [.call (.acquire l)])
  | retest (pre : List (Frame ρ)) (h : ∀ g ∈ pre, g.Calm) (old : IntStatus) :
      Acquiring l (pre ++ [.acquireRetest l, .setLevel old, .acquireReturn l])
  | returns (pre : List (Frame ρ)) (h : ∀ g ∈ pre, g.Calm) :
      Acquiring l (pre ++ [.acquireReturn l])

/-- The frames of a thread inside `Wait` on the condition and the lock `l`, up to its
`Sleep`. -/
inductive Waiting {ρ : Type} (l : Obj) : List (Frame ρ) → Prop
  | call : Waiting l [.call (.wait l l)]
  | release (old : IntStatus) : Waiting l [.call (.release l), .waitEnqueue l l old]
  | enqueue (pre : List (Frame ρ)) (h : ∀ g ∈ pre, g.Calm) (old : IntStatus) :
      Waiting l (pre ++ [.waitEnqueue l l old])

/-- The frame leaves the condition of `t` and the marks of `Finish` and `Join` for `t` alone. -/
def Frame.Spares {ρ : Type} (me t : Tid) : Frame ρ → Prop
  | .call (.signal c _) => ¬ c.isOf t
  | .call (.join s) => s ≠ t
  | .call .finish => me ≠ t
  | .waitEnqueue c _ _ => ¬ c.isOf t
  | .finishLoop => me ≠ t
  | .finishDone => me ≠ t
  | .joinBody s => s ≠ t
  | .joinReturn s => s ≠ t
  | _ => True

theorem Frame.Calm.spares {ρ : Type} {f : Frame ρ} (h : f.Calm) (me t : Tid) : f.Spares me t := by
  cases f with
  | call o => cases o <;> simp_all [Frame.Calm, Frame.Spares]
  | _ => simp_all [Frame.Calm, Frame.Spares]

theorem Frame.spares_of_not_touches {ρ : Type} {f : Frame ρ} {me t : Tid} (h : ¬ f.Touches me t)
    (hf : ∀ o, f = .call o → o.isInner = true) : f.Spares me t := by
  cases f with
  | call o => cases o <;> simp_all [Frame.Touches, Call.Touches, Frame.Spares, Call.isInner]
  | _ => simp_all [Frame.Touches, Frame.Spares]

section

variable {ρ : Type} {me t : Tid} {l : Obj} {f : Frame ρ} {fs new rest : List (Frame ρ)}

/-- The topmost of some calm frames is run, or the first frame below them. -/
theorem calm_next {pre tail : List (Frame ρ)} (h : ∀ g ∈ pre, g.Calm) (hfs : f :: fs = pre ++ tail)
    (hn : f.Next me new) :
    f :: fs = tail ∨ f.Spares me t ∧ ∃ pre', new ++ fs = pre' ++ tail ∧ ∀ g ∈ pre', g.Calm := by
  cases pre with
  | nil => exact .inl hfs
  | cons g pre =>
      rw [List.cons_append, List.cons.injEq] at hfs
      obtain ⟨rfl, rfl⟩ := hfs
      refine .inr ⟨(h f (by simp)).spares me t, new ++ pre, by simp, ?_⟩
      intro g hg
      rcases List.mem_append.1 hg with hg | hg
      · exact (h f (by simp)).next hn hg
      · exact h g (by simp [hg])

theorem eq_cons_of_append {pre tail : List (Frame ρ)} (hne : pre ≠ []) (h : f :: fs = pre ++ tail) :
    ∃ pre', pre = f :: pre' ∧ fs = pre' ++ tail :=
  (List.cons_eq_append_iff.1 h).resolve_left fun hnil => hne hnil.1

theorem Acquiring.ne_nil (h : Acquiring l fs) : fs ≠ [] := by
  cases h <;> simp

theorem Waiting.ne_nil (h : Waiting l fs) : fs ≠ [] := by
  cases h <;> simp

theorem Acquiring.next (h : Acquiring l (f :: fs)) (hn : f.Next me new) :
    f.Spares me t ∧ (Acquiring l (new ++ fs) ∨ new ++ fs = []) := by
  generalize hgs : f :: fs = gs at h
  cases h with
  | call pre h =>
      rcases calm_next h hgs hn with hgs | ⟨hf, pre', heq, h'⟩
      · cases hgs
        cases hn with
        | call _ _ hn =>
            cases hn with
            | acquireTake l old =>
                exact ⟨trivial, .inl (.returns [.setLevel old] (by simp [Frame.Calm]))⟩
            | acquireSleep l old =>
                exact ⟨trivial, .inl (.retest [.sleepLoop] (by simp [Frame.Calm]) old)⟩
      · exact ⟨hf, .inl (heq ▸ .call pre' h')⟩
  | retest pre h old =>
      rcases calm_next h hgs hn with hgs | ⟨hf, pre', heq, h'⟩
      · cases hgs
        cases hn with
        | acquireRetestTake =>
            exact ⟨trivial, .inl (.returns [.setLevel old] (by simp [Frame.Calm]))⟩
        | acquireRetestSleep =>
            exact ⟨trivial, .inl (.retest [.sleepLoop] (by simp [Frame.Calm]) old)⟩
      · exact ⟨hf, .inl (heq ▸ .retest pre' h' old)⟩
  | returns pre h =>
      rcases calm_next h hgs hn with hgs | ⟨hf, pre', heq, h'⟩
      · cases hgs
        cases hn
        exact ⟨trivial, .inr rfl⟩
      · exact ⟨hf, .inl (heq ▸ .returns pre' h')⟩

theorem Waiting.next (h : Waiting l (f :: fs)) (hn : f.Next me new) :
    f.Spares me t ∧ Waiting l (new ++ fs) ∨
      ∃ old, f = .waitEnqueue l l old ∧ new ++ fs = [.sleepLoop, .waitWoken l l old] := by
  generalize hgs : f :: fs = gs at h
  cases h with
  | call =>
      cases hgs
      cases hn with
      | call _ _ hn =>
          cases hn with
          | wait c l old => exact .inl ⟨trivial, .release old⟩
  | release old =>
      cases hgs
      cases hn with
      | call _ _ hn =>
          cases hn with
          | release l old' =>
              exact .inl ⟨trivial, .enqueue [.setLevel old'] (by simp [Frame.Calm]) old⟩
  | enqueue pre h old =>
      rcases calm_next h hgs hn with hgs | ⟨hf, pre', heq, h'⟩
      · cases hgs
        cases hn
        exact .inr ⟨old, rfl, rfl⟩
      · exact .inl ⟨hf, heq ▸ .enqueue pre' h' old⟩

end

/-! ## `Signal` and `Wait` -/

/-- Where a thread is in `cv->Signal(lock); cv->Wait(lock);`. -/
inductive CyclePhase where
  | greeting
  | waiting
  | asleep
  | back
  deriving DecidableEq

/-- The frames of a thread there, with `rest` left to do after it. -/
inductive InCycle {ρ : Type} (l : Obj) (rest : List (Frame ρ)) : CyclePhase → List (Frame ρ) → Prop
  | greet : InCycle l rest .greeting (.call (.signal l l) :: .call (.wait l l) :: rest)
  | wait (fs : List (Frame ρ)) (h : Waiting l fs) : InCycle l rest .waiting (fs ++ rest)
  | asleep (pre : List (Frame ρ)) (h : ∀ g ∈ pre, g.Calm) (old : IntStatus) :
      InCycle l rest .asleep (pre ++ .waitWoken l l old :: rest)
  | acquire (fs : List (Frame ρ)) (h : Acquiring l fs) :
      InCycle l rest .back (fs ++ .waitReturn l l :: rest)
  | returns : InCycle l rest .back (.waitReturn l l :: rest)

/-- The moves, with the frame that is run. -/
inductive CycleMove {ρ : Type} (me t : Tid) : CyclePhase → Frame ρ → CyclePhase → Prop
  | stay (ph : CyclePhase) (f : Frame ρ) (h : f.Spares me t) : CycleMove me t ph f ph
  | greet : CycleMove me t .greeting (.call (.signal (.ofThread t) (.ofThread t))) .waiting
  | sleep (old : IntStatus) :
      CycleMove me t .waiting (.waitEnqueue (.ofThread t) (.ofThread t) old) .asleep
  | wake (old : IntStatus) :
      CycleMove me t .asleep (.waitWoken (.ofThread t) (.ofThread t) old) .back

theorem InCycle.next {ρ : Type} {me t : Tid} {f : Frame ρ} {fs new rest : List (Frame ρ)}
    {ph : CyclePhase} (h : InCycle (.ofThread t) rest ph (f :: fs)) (hn : f.Next me new) :
    (∃ ph', CycleMove me t ph f ph' ∧ InCycle (.ofThread t) rest ph' (new ++ fs)) ∨
      ph = .back ∧ f.Spares me t ∧ new ++ fs = rest := by
  generalize hgs : f :: fs = gs at h
  cases h with
  | greet =>
      cases hgs
      cases hn with
      | call _ _ hn =>
          cases hn
          exact .inl ⟨.waiting, .greet, .wait [_] .call⟩
  | wait gs h =>
      obtain ⟨gs, rfl, rfl⟩ := eq_cons_of_append h.ne_nil hgs
      rw [← List.append_assoc]
      rcases h.next (t := t) hn with ⟨hf, h'⟩ | ⟨old, rfl, heq⟩
      · exact .inl ⟨.waiting, .stay _ _ hf, .wait _ h'⟩
      · rw [heq]
        exact .inl ⟨.asleep, .sleep old, .asleep [.sleepLoop] (by simp [Frame.Calm]) old⟩
  | asleep pre h old =>
      rcases calm_next (t := t) h hgs hn with hgs | ⟨hf, pre', heq, h'⟩
      · cases hgs
        cases hn
        exact .inl ⟨.back, .wake old, .acquire [.setLevel old, .call (.acquire (.ofThread t))]
          (.call [.setLevel old] (by simp [Frame.Calm]))⟩
      · exact .inl ⟨.asleep, .stay _ _ hf, heq ▸ .asleep pre' h' old⟩
  | acquire gs h =>
      obtain ⟨gs, rfl, rfl⟩ := eq_cons_of_append h.ne_nil hgs
      rw [← List.append_assoc]
      obtain ⟨hf, h' | heq⟩ := h.next (t := t) hn
      · exact .inl ⟨.back, .stay _ _ hf, .acquire _ h'⟩
      · rw [heq]
        exact .inl ⟨.back, .stay _ _ hf, .returns⟩
  | returns =>
      cases hgs
      cases hn
      exact .inr ⟨rfl, trivial, rfl⟩

/-! ## `Join` -/

/-- Where a thread is in its call of `Join` on `t`. -/
inductive JoinPhase where
  | out
  | entering
  | cycle (ph : CyclePhase)
  | bye
  | leaving
  | passed

/-- The frames of the thread `me` there. -/
inductive JoinAt {ρ : Type} (me t : Tid) : JoinPhase → List (Frame ρ) → Prop
  | out (fs : List (Frame ρ)) (h : ∀ f ∈ fs, ¬ f.Touches me t) : JoinAt me t .out fs
  | acquire (fs : List (Frame ρ)) (h : Acquiring (.ofThread t) fs) :
      JoinAt me t .entering (fs ++ [.joinBody t, .joinReturn t])
  | body : JoinAt me t .entering [.joinBody t, .joinReturn t]
  | cycle (ph : CyclePhase) (fs : List (Frame ρ))
      (h : InCycle (.ofThread t) [.call (.signal (.ofThread t) (.ofThread t)),
        .call (.release (.ofThread t)), .joinReturn t] ph fs) : JoinAt me t (.cycle ph) fs
  | bye : JoinAt me t .bye [.call (.signal (.ofThread t) (.ofThread t)),
      .call (.release (.ofThread t)), .joinReturn t]
  | release : JoinAt me t .leaving [.call (.release (.ofThread t)), .joinReturn t]
  | returns (pre : List (Frame ρ)) (h : ∀ g ∈ pre, g.Calm) :
      JoinAt me t .leaving (pre ++ [.joinReturn t])
  | passed (fs : List (Frame ρ)) (h : ∀ f ∈ fs, ¬ f.Touches me t) : JoinAt me t .passed fs

inductive JoinMove {ρ : Type} (me t : Tid) : JoinPhase → Frame ρ → JoinPhase → Prop
  | stay (ph : JoinPhase) (f : Frame ρ) (h : f.Spares me t) : JoinMove me t ph f ph
  | body : JoinMove me t .entering (.joinBody t) (.cycle .greeting)
  | cycle (ph ph' : CyclePhase) (f : Frame ρ) (h : CycleMove me t ph f ph') :
      JoinMove me t (.cycle ph) f (.cycle ph')
  | back (f : Frame ρ) (h : f.Spares me t) : JoinMove me t (.cycle .back) f .bye
  | bye : JoinMove me t .bye (.call (.signal (.ofThread t) (.ofThread t))) .leaving
  | returns : JoinMove me t .leaving (.joinReturn t) .passed

theorem not_touches_next {ρ : Type} {me t : Tid} {f : Frame ρ} {fs new : List (Frame ρ)}
    (h : ∀ g ∈ f :: fs, ¬ g.Touches me t) (hn : f.Next me new)
    (hf : ∀ o, f = .call o → o.isInner = true) : ∀ g ∈ new ++ fs, ¬ g.Touches me t := by
  intro g hg hgt
  rcases List.mem_append.1 hg with hg | hg
  · exact h f (by simp) (hn.touches hf hg hgt)
  · exact h g (by simp [hg]) hgt

theorem JoinAt.next {ρ : Type} {me t : Tid} {f : Frame ρ} {fs new : List (Frame ρ)}
    {ph : JoinPhase} (h : JoinAt me t ph (f :: fs)) (hn : f.Next me new)
    (hf : ∀ o, f = .call o → o.isInner = true) :
    ∃ ph', JoinMove me t ph f ph' ∧ JoinAt me t ph' (new ++ fs) := by
  generalize hgs : f :: fs = gs at h
  cases h with
  | out gs h =>
      subst hgs
      exact ⟨.out, .stay _ _ (Frame.spares_of_not_touches (h f (by simp)) hf),
        .out _ (not_touches_next h hn hf)⟩
  | passed gs h =>
      subst hgs
      exact ⟨.passed, .stay _ _ (Frame.spares_of_not_touches (h f (by simp)) hf),
        .passed _ (not_touches_next h hn hf)⟩
  | acquire gs h =>
      obtain ⟨gs, rfl, rfl⟩ := eq_cons_of_append h.ne_nil hgs
      rw [← List.append_assoc]
      obtain ⟨hf, h' | heq⟩ := h.next (t := t) hn
      · exact ⟨.entering, .stay _ _ hf, .acquire _ h'⟩
      · rw [heq]
        exact ⟨.entering, .stay _ _ hf, .body⟩
  | body =>
      cases hgs
      cases hn
      exact ⟨.cycle .greeting, .body, .cycle _ _ .greet⟩
  | cycle ph gs h =>
      subst hgs
      rcases h.next hn with ⟨ph', hm, h'⟩ | ⟨rfl, hf, heq⟩
      · exact ⟨.cycle ph', .cycle _ _ _ hm, .cycle _ _ h'⟩
      · rw [heq]
        exact ⟨.bye, .back _ hf, .bye⟩
  | bye =>
      cases hgs
      cases hn with
      | call _ _ hn =>
          cases hn
          exact ⟨.leaving, .bye, .release⟩
  | release =>
      cases hgs
      cases hn with
      | call _ _ hn =>
          cases hn with
          | release l old =>
              exact ⟨.leaving, .stay _ _ trivial, .returns [.setLevel old] (by simp [Frame.Calm])⟩
  | returns pre h =>
      rcases calm_next (t := t) h hgs hn with hgs | ⟨hf, pre', heq, h'⟩
      · cases hgs
        cases hn
        exact ⟨.passed, .returns, .passed [] (by simp)⟩
      · exact ⟨.leaving, .stay _ _ hf, heq ▸ .returns pre' h'⟩

/-- The return of `Join` is the last frame. -/
theorem JoinAt.of_joinReturn {ρ : Type} {me t : Tid} {rest : List (Frame ρ)} {ph : JoinPhase}
    (h : JoinAt me t ph (.joinReturn t :: rest)) : rest = [] := by
  obtain ⟨ph', hmove, -⟩ := h.next (.joinReturn t) (by simp)
  have hleaving : ph = .leaving := by
    cases hmove with
    | stay _ _ hspare => exact absurd rfl hspare
    | back _ hspare => exact absurd rfl hspare
    | returns => rfl
    | cycle ph ph' f hmove =>
        cases hmove with
        | stay _ _ hspare => exact absurd rfl hspare
  subst hleaving
  generalize hgs : Frame.joinReturn t :: rest = gs at h
  cases h with
  | release => cases hgs
  | returns pre h =>
      cases pre with
      | nil =>
          cases hgs
          rfl
      | cons g pre =>
          rw [List.cons_append, List.cons.injEq] at hgs
          obtain ⟨rfl, -⟩ := hgs
          exact absurd (h (.joinReturn t) (by simp)) (by simp [Frame.Calm])

/-- The last `Signal` of `Join`. -/
theorem JoinAt.of_signal {ρ : Type} {me t : Tid} {l : Obj} {rest : List (Frame ρ)} {ph : JoinPhase}
    (hl : l = .ofThread t) (h : JoinAt me t ph (.call (.signal l l) :: rest))
    (hlast : .call (.signal l l) ∉ rest) :
    ph = .bye ∧ rest = [.call (.release l), .joinReturn t] := by
  subst hl
  obtain ⟨ph', hmove, h'⟩ := h.next (.call _ _ (.signal _ _)) (by simp [Call.isInner])
  cases hmove with
  | stay _ _ hspare => exact absurd rfl hspare
  | back _ hspare => exact absurd rfl hspare
  | bye =>
      generalize hgs : Frame.call (.signal (.ofThread t) (.ofThread t)) :: rest = gs at h
      cases h with
      | bye =>
          cases hgs
          exact ⟨rfl, rfl⟩
  | cycle ph ph' f hmove =>
      cases hmove with
      | stay _ _ hspare => exact absurd rfl hspare
      | greet =>
          -- the second `Signal` is still to come
          generalize hgs : Frame.call (.signal (.ofThread t) (.ofThread t)) :: rest = gs at h
          cases h with
          | cycle ph gs h =>
              cases h with
              | greet =>
                  cases hgs
                  simp at hlast

/-! ## `Finish` -/

/-- Where `t` is in its `Finish`. -/
inductive FinishPhase where
  | out
  | entering
  /-- In the body of the loop. -/
  | turn (ph : CyclePhase)
  | again
  /-- After the loop. -/
  | exit (ph : CyclePhase)
  /-- After the loop, for a thread that is not joinable. -/
  | drop
  | leaving
  | completed

/-- The frames of `t` there. -/
inductive FinishAt {ρ : Type} (t : Tid) : FinishPhase → List (Frame ρ) → Prop
  | out (fs : List (Frame ρ)) (h : ∀ f ∈ fs, ¬ f.Touches t t) : FinishAt t .out fs
  | acquire (fs : List (Frame ρ)) (h : Acquiring (.ofThread t) fs) :
      FinishAt t .entering (fs ++ [.finishLoop])
  | body : FinishAt t .entering [.finishLoop]
  | turn (ph : CyclePhase) (fs : List (Frame ρ))
      (h : InCycle (.ofThread t) [.call (.signal (.ofThread t) (.ofThread t)), .finishLoop] ph fs) :
      FinishAt t (.turn ph) fs
  | again : FinishAt t .again [.call (.signal (.ofThread t) (.ofThread t)), .finishLoop]
  | exit (ph : CyclePhase) (fs : List (Frame ρ))
      (h : InCycle (.ofThread t) [.call (.release (.ofThread t)), .finishDone] ph fs) :
      FinishAt t (.exit ph) fs
  | drop : FinishAt t .drop [.call (.signal (.ofThread t) (.ofThread t)),
      .call (.release (.ofThread t)), .finishDone]
  | release : FinishAt t .leaving [.call (.release (.ofThread t)), .finishDone]
  | done (pre : List (Frame ρ)) (h : ∀ g ∈ pre, g.Calm) : FinishAt t .leaving (pre ++ [.finishDone])
  | completed (pre : List (Frame ρ)) (h : ∀ g ∈ pre, g.Calm) :
      FinishAt t .completed (pre ++ [.finished])

inductive FinishMove {ρ : Type} (t : Tid) : FinishPhase → Frame ρ → FinishPhase → Prop
  | stay (ph : FinishPhase) (f : Frame ρ) (h : f.Spares t t) : FinishMove t ph f ph
  | turn (ph ph' : CyclePhase) (f : Frame ρ) (h : CycleMove t t ph f ph') :
      FinishMove t (.turn ph) f (.turn ph')
  | turned (f : Frame ρ) (h : f.Spares t t) : FinishMove t (.turn .back) f .again
  | again : FinishMove t .again (.call (.signal (.ofThread t) (.ofThread t))) .entering
  | exit (ph ph' : CyclePhase) (f : Frame ρ) (h : CycleMove t t ph f ph') :
      FinishMove t (.exit ph) f (.exit ph')
  | exited (f : Frame ρ) (h : f.Spares t t) : FinishMove t (.exit .back) f .leaving
  | drop : FinishMove t .drop (.call (.signal (.ofThread t) (.ofThread t))) .leaving
  | done : FinishMove t .leaving .finishDone .completed

theorem FinishAt.next {ρ : Type} {t : Tid} {f : Frame ρ} {fs new : List (Frame ρ)}
    {ph : FinishPhase} (h : FinishAt t ph (f :: fs)) (hn : f.Next t new)
    (hf : ∀ o, f = .call o → o.isInner = true) :
    (∃ ph', FinishMove t ph f ph' ∧ FinishAt t ph' (new ++ fs)) ∨
      ph = .entering ∧ f = .finishLoop ∧ fs = [] := by
  generalize hgs : f :: fs = gs at h
  cases h with
  | out gs h =>
      subst hgs
      exact .inl ⟨.out, .stay _ _ (Frame.spares_of_not_touches (h f (by simp)) hf),
        .out _ (not_touches_next h hn hf)⟩
  | acquire gs h =>
      obtain ⟨gs, rfl, rfl⟩ := eq_cons_of_append h.ne_nil hgs
      rw [← List.append_assoc]
      obtain ⟨hf, h' | heq⟩ := h.next (t := t) hn
      · exact .inl ⟨.entering, .stay _ _ hf, .acquire _ h'⟩
      · rw [heq]
        exact .inl ⟨.entering, .stay _ _ hf, .body⟩
  | body =>
      cases hgs
      exact .inr ⟨rfl, rfl, rfl⟩
  | turn ph gs h =>
      subst hgs
      rcases h.next hn with ⟨ph', hm, h'⟩ | ⟨rfl, hf, heq⟩
      · exact .inl ⟨.turn ph', .turn _ _ _ hm, .turn _ _ h'⟩
      · rw [heq]
        exact .inl ⟨.again, .turned _ hf, .again⟩
  | again =>
      cases hgs
      cases hn with
      | call _ _ hn =>
          cases hn
          exact .inl ⟨.entering, .again, .body⟩
  | exit ph gs h =>
      subst hgs
      rcases h.next hn with ⟨ph', hm, h'⟩ | ⟨rfl, hf, heq⟩
      · exact .inl ⟨.exit ph', .exit _ _ _ hm, .exit _ _ h'⟩
      · rw [heq]
        exact .inl ⟨.leaving, .exited _ hf, .release⟩
  | drop =>
      cases hgs
      cases hn with
      | call _ _ hn =>
          cases hn
          exact .inl ⟨.leaving, .drop, .release⟩
  | release =>
      cases hgs
      cases hn with
      | call _ _ hn =>
          cases hn with
          | release l old =>
              exact .inl ⟨.leaving, .stay _ _ trivial, .done [.setLevel old] (by simp [Frame.Calm])⟩
  | done pre h =>
      rcases calm_next (t := t) h hgs hn with hgs | ⟨hf, pre', heq, h'⟩
      · cases hgs
        cases hn
        exact .inl ⟨.completed, .done, .completed [.sleepLoop] (by simp [Frame.Calm])⟩
      · exact .inl ⟨.leaving, .stay _ _ hf, heq ▸ .done pre' h'⟩
  | completed pre h =>
      rcases calm_next (t := t) h hgs hn with hgs | ⟨hf, pre', heq, h'⟩
      · cases hgs
        cases hn
      · exact .inl ⟨.completed, .stay _ _ hf, heq ▸ .completed pre' h'⟩

namespace Kernel

variable {ρ δ α : Type}

/-- The marks of `Finish` and `Join` for `t` are the same. -/
structure SameMarks (t : Tid) (k k' : Kernel ρ δ) : Prop where
  readyToJoin : k'.readyToJoin t = k.readyToJoin t
  joinCalled : ∀ u, .joinCalled u t ∈ k'.log ↔ .joinCalled u t ∈ k.log
  joinReturned : ∀ u, .joinReturned u t ∈ k'.log ↔ .joinReturned u t ∈ k.log
  finishCalled : .finishCalled t ∈ k'.log ↔ .finishCalled t ∈ k.log
  finishCompleted : .finishCompleted t ∈ k'.log ↔ .finishCompleted t ∈ k.log

/-- What `Finish` and `Join` share of `t` is the same. -/
structure Spared (t : Tid) (k k' : Kernel ρ δ) : Prop extends SameMarks t k k' where
  queue : k'.queue (.condition (.ofThread t)) = k.queue (.condition (.ofThread t))

theorem Unmarked.sameMarks {k k' : Kernel ρ δ} (h : Unmarked k k') (t : Tid) :
    SameMarks t k k' where
  readyToJoin := by rw [h.readyToJoin]
  joinCalled _ := h.mem_log rfl
  joinReturned _ := h.mem_log rfl
  finishCalled := h.mem_log rfl
  finishCompleted := h.mem_log rfl

theorem SameMarks.of_mark {k k' : Kernel ρ δ} {f : Frame ρ} {t : Tid}
    (hf : f.Spares k.currentThread t) (hm : Unmarked (k.mark f) k') : SameMarks t k k' := by
  have hlog : ∀ e, e.about = none → e ∉ f.deeds k.currentThread → (e ∈ k'.log ↔ e ∈ k.log) := by
    intro e he hne
    rw [hm.mem_log he, mem_mark_log]
    simp [hne]
  refine ⟨?_, ?_, ?_, ?_, ?_⟩
  · rw [hm.readyToJoin]
    cases f with
    | call o => cases o <;> rfl
    | joinBody s =>
        have hs : t ≠ s := fun h => hf h.symm
        simp [mark, hs]
    | afterSwitch =>
        simp only [mark]
        split <;> rfl
    | _ => rfl
  · intro u
    refine hlog _ rfl ?_
    cases f with
    | call o => cases o <;> simp_all [Frame.deeds, Frame.Spares, eq_comm]
    | _ => simp [Frame.deeds]
  · intro u
    refine hlog _ rfl ?_
    cases f with
    | call o => cases o <;> simp [Frame.deeds]
    | _ => simp_all [Frame.deeds, Frame.Spares, eq_comm]
  · refine hlog _ rfl ?_
    cases f with
    | call o => cases o <;> simp_all [Frame.deeds, Frame.Spares, eq_comm]
    | _ => simp [Frame.deeds]
  · refine hlog _ rfl ?_
    cases f with
    | call o => cases o <;> simp [Frame.deeds]
    | _ => simp_all [Frame.deeds, Frame.Spares, eq_comm]

section

variable {cl : Client ρ δ α} {k k' : Kernel ρ δ} {lab : Label α} {t : Tid}

/-- The marks that the topmost frame leaves. -/
theorem unmarked_top (hk' : step cl k lab = .ok k') {f : Frame ρ} {rest : List (Frame ρ)}
    (hs : k.stack k.currentThread = f :: rest) : Unmarked (k.mark f) k' := by
  rcases step_mark hk' with ⟨g, rest', hs', hm⟩ | ⟨a, o, pc, data, -, hs', -⟩
  · rw [hs] at hs'
    cases hs'
    exact hm
  · simp [hs] at hs'

theorem join_of_top (hinner : ∀ t o, .call o ∈ k.stack t → o.isInner = true)
    (hk' : step cl k lab = .ok k') (hs : k.stack k.currentThread ≠ []) : k'.join = k.join := by
  rcases step_program hinner hk' with ⟨a, o, pc, data, -, hs', -⟩ | ⟨a, -, he⟩ | ⟨-, hq⟩
  · exact absurd hs' hs
  · obtain ⟨sems, data, -, hq⟩ := handle_program he
    exact hq.join
  · exact hq.join

theorem queue_of_top (hp : k.Placed) (ht : k.Tidy)
    (hinner : ∀ t o, .call o ∈ k.stack t → o.isInner = true) (hk' : step cl k lab = .ok k')
    {f : Frame ρ} {rest : List (Frame ρ)} (hs : k.stack k.currentThread = f :: rest)
    (hsignal : ∀ l, f ≠ .call (.signal (.ofThread t) l))
    (hwait : ∀ l old, f ≠ .waitEnqueue (.ofThread t) l old) :
    k'.queue (.condition (.ofThread t)) = k.queue (.condition (.ofThread t)) := by
  rcases step_condition (t := t) hp ht hinner hk' with hq | ⟨l, rest', hs', -⟩ |
    ⟨l, old, rest', hs', -⟩
  · exact hq
  · rw [hs] at hs'
    cases hs'
    exact absurd rfl (hsignal l)
  · rw [hs] at hs'
    cases hs'
    exact absurd rfl (hwait l old)

/-- The current thread runs a frame that spares `t`. -/
theorem Spared.of_frame (hp : k.Placed) (ht : k.Tidy)
    (hinner : ∀ t o, .call o ∈ k.stack t → o.isInner = true) (hk' : step cl k lab = .ok k')
    {f : Frame ρ} {rest : List (Frame ρ)} (hs : k.stack k.currentThread = f :: rest)
    (hf : f.Spares k.currentThread t) : Spared t k k' := by
  refine ⟨.of_mark hf (unmarked_top hk' hs), queue_of_top hp ht hinner hk' hs ?_ ?_⟩
  · rintro l rfl
    exact hf rfl
  · rintro l old rfl
    exact hf rfl

/-- The current thread makes a call in its own code that spares `t`. -/
theorem Spared.of_own (hp : k.Placed) (ht : k.Tidy)
    (hinner : ∀ t o, .call o ∈ k.stack t → o.isInner = true) (hk' : step cl k lab = .ok k')
    (hs : k.stack k.currentThread = []) {o : Call ρ} (ho : (Frame.call o).Spares k.currentThread t)
    (hm : Unmarked (k.mark (.call o)) k') : Spared t k k' := by
  refine ⟨.of_mark ho hm, ?_⟩
  rcases step_condition (t := t) hp ht hinner hk' with hq | ⟨l, rest', hs', -⟩ |
    ⟨l, old, rest', hs', -⟩
  · exact hq
  · simp [hs] at hs'
  · simp [hs] at hs'

theorem Call.spares_of_public {o : Call ρ} (ho : o.isPublic = true) {me : Tid} (hj : o ≠ .join t)
    (hf : o = .finish → me ≠ t) : (Frame.call o).Spares me t := by
  cases o with
  | signal c l => cases c <;> simp_all [Call.isPublic, Frame.Spares, Obj.isOf]
  | _ => simp_all [Frame.Spares]

/-- A thread that is not current, or not on its `Sleep`, is not on a queue. -/
theorem not_mem_queue_of_top (hp : k.Placed) {f : Frame ρ} {rest : List (Frame ρ)}
    (hs : k.stack k.currentThread = f :: rest) (hf : f ≠ .sleepLoop) (q : QueueId) :
    k.currentThread ∉ (k.queue q).map Keyed.item := by
  intro hmem
  have hawake : k.Awake := hp.awake_of_not_inSleep (by simpa [InSleep, hs] using hf)
  rw [mem_queue_iff hp, hawake.seat_current] at hmem
  cases hmem

theorem next_of_top (hp : k.Placed) (hk' : step cl k lab = .ok k') {f : Frame ρ}
    {rest : List (Frame ρ)} (hs : k.stack k.currentThread = f :: rest) :
    ∃ new, f.Next k.currentThread new ∧ k'.stack k.currentThread = new ++ rest := by
  obtain ⟨fs, hr, hstack, -, -⟩ := step_stack hp.current_lt hk'
  obtain ⟨g, new, rest', hs', hnew, hn⟩ := hr.frame_of_ne_nil (by simp [hs])
  rw [hs] at hs'
  cases hs'
  exact ⟨new, hn, by simp [hstack, hnew]⟩

theorem queue_of_signal (hk' : step cl k lab = .ok k') {l : Obj} {rest : List (Frame ρ)}
    (hs : k.stack k.currentThread = .call (.signal (.ofThread t) l) :: rest) :
    k'.queue (.condition (.ofThread t)) = (k.queue (.condition (.ofThread t))).tail := by
  have he := exec_of_top hk' hs
  simp only [exec, signal, assertThen_ok, Except.ok.injEq] at he
  obtain ⟨-, rfl⟩ := he
  exact signalOne_queue _ _

theorem mem_queue_of_waitEnqueue (hk' : step cl k lab = .ok k') {l : Obj} {old : IntStatus}
    {rest : List (Frame ρ)}
    (hs : k.stack k.currentThread = .waitEnqueue (.ofThread t) l old :: rest) (u : Tid) :
    u ∈ (k'.queue (.condition (.ofThread t))).map Keyed.item ↔
      u = k.currentThread ∨ u ∈ (k.queue (.condition (.ofThread t))).map Keyed.item := by
  have hr := resume_of_top hk' hs (by simp)
  cases lab with
  | go =>
      simp only [resume, waitEnqueue, sleep, assertThen_ok, Except.ok.injEq] at hr
      obtain ⟨-, rfl⟩ := hr
      exact mem_insert_queue
  | _ => cases hr

/-- A queue with one thread on it at most is empty without its front. -/
theorem tail_queue_eq_nil (hp : k.Placed) {q : QueueId} {u : Tid}
    (h : ∀ w ∈ (k.queue q).map Keyed.item, w = u) : (k.queue q).tail = [] := by
  have hcount : ((k.queue q).map Keyed.item).count u ≤ 1 := by
    have := hp.seated q u
    unfold occ at this
    split at this <;> omega
  have hrep := List.eq_replicate_of_mem h
  rw [hrep, List.count_replicate_self, List.length_map] at hcount
  exact List.eq_nil_of_length_eq_zero (by rw [List.length_tail]; omega)

end

end Kernel

/-- How far a thread is in `Join`. -/
def JoinPhase.rank : JoinPhase → ℕ
  | .out => 0
  | .entering => 1
  | .cycle .greeting => 2
  | .cycle .waiting => 3
  | .cycle .asleep => 4
  | .cycle .back => 5
  | .bye => 6
  | .leaving => 7
  | .passed => 8

/-- How far a thread is in `Finish`; the loop has `2` to `6`. -/
def FinishPhase.rank : FinishPhase → ℕ
  | .out => 0
  | .entering => 1
  | .turn .greeting => 2
  | .turn .waiting => 3
  | .turn .asleep => 4
  | .turn .back => 5
  | .again => 6
  | .drop => 7
  | .exit .greeting => 8
  | .exit .waiting => 9
  | .exit .asleep => 10
  | .exit .back => 11
  | .leaving => 12
  | .completed => 13

/-- The places `j` in `Join` and `f` in `Finish` that go together; `pq` and `cq` say that
the thread in `Join` and the one in `Finish` are on the queue of the condition, and
`joinable` that the one in `Finish` is. -/
structure Fits (j f : ℕ) (pq cq joinable : Prop) : Prop where
  turning : f = 2 ∨ f = 3 → j < 2
  asleep : f = 4 → cq → j ≤ 2
  dropping : f = 7 → ¬ joinable
  exiting : 8 ≤ f → joinable → 2 ≤ j
  closing : 9 ≤ f → joinable → 4 ≤ j ∧ ¬ pq
  woken : 11 ≤ f ∨ f = 10 ∧ ¬ cq → joinable → 7 ≤ j
  served : 5 ≤ j ∨ j = 4 ∧ ¬ pq → 1 ≤ f

/-- The handshake of `c` with the one thread `p` that joins it. -/
structure Handshake {ρ δ : Type} (p c : Tid) (jp : JoinPhase) (fp : FinishPhase) (k : Kernel ρ δ) :
    Prop where
  join : JoinAt p c jp (k.stack p)
  finish : FinishAt c fp (k.stack c)
  ready : k.readyToJoin c = true ↔ 2 ≤ jp.rank
  joinCalled : .joinCalled p c ∈ k.log ↔ 1 ≤ jp.rank
  joinReturned : .joinReturned p c ∈ k.log → jp.rank = 8
  finishCalled : .finishCalled c ∈ k.log ↔ 1 ≤ fp.rank
  finishCompleted : .finishCompleted c ∈ k.log → fp.rank = 13
  fits : Fits jp.rank fp.rank (p ∈ (k.queue (.condition (.ofThread c))).map Keyed.item)
    (c ∈ (k.queue (.condition (.ofThread c))).map Keyed.item) (k.join c ≠ 0)

section

variable {ρ : Type} {me t : Tid} {fs rest : List (Frame ρ)}

theorem not_mem_of_calm {f : Frame ρ} (hf : ¬ f.Calm) (h : ∀ g ∈ fs, g.Calm) : f ∉ fs :=
  fun hmem => hf (h f hmem)

theorem Acquiring.not_waitWoken {l c l' : Obj} {old : IntStatus} (h : Acquiring l fs) :
    .waitWoken c l' old ∉ fs := by
  have hcalm : ∀ pre : List (Frame ρ), (∀ g ∈ pre, g.Calm) → .waitWoken c l' old ∉ pre :=
    fun pre => not_mem_of_calm (by simp [Frame.Calm])
  cases h with
  | call pre h => simp [hcalm pre h]
  | retest pre h old => simp [hcalm pre h]
  | returns pre h => simp [hcalm pre h]

theorem Waiting.not_waitWoken {l c l' : Obj} {old : IntStatus} (h : Waiting l fs) :
    .waitWoken c l' old ∉ fs := by
  have hcalm : ∀ pre : List (Frame ρ), (∀ g ∈ pre, g.Calm) → .waitWoken c l' old ∉ pre :=
    fun pre => not_mem_of_calm (by simp [Frame.Calm])
  cases h with
  | enqueue pre h old => simp [hcalm pre h]
  | _ => simp

theorem InCycle.of_waitWoken {l c l' : Obj} {old : IntStatus} {ph : CyclePhase}
    (h : InCycle l rest ph fs) (hmem : .waitWoken c l' old ∈ fs)
    (hrest : .waitWoken c l' old ∉ rest) : ph = .asleep := by
  cases h with
  | greet => simp [hrest] at hmem
  | wait gs h => simp [h.not_waitWoken, hrest] at hmem
  | asleep pre h old => rfl
  | acquire gs h => simp [h.not_waitWoken, hrest] at hmem
  | returns => simp [hrest] at hmem

theorem JoinAt.of_waitWoken {l : Obj} {old : IntStatus} {ph : JoinPhase} (h : JoinAt me t ph fs)
    (hmem : .waitWoken (.ofThread t) l old ∈ fs) : ph.rank = 4 := by
  cases h with
  | out fs h => exact absurd (.inl rfl) (h _ hmem)
  | passed fs h => exact absurd (.inl rfl) (h _ hmem)
  | acquire gs h => simp [h.not_waitWoken] at hmem
  | cycle ph fs h =>
      cases h.of_waitWoken hmem (by simp)
      rfl
  | returns pre h =>
      have := not_mem_of_calm (f := .waitWoken (.ofThread t) l old) (by simp [Frame.Calm]) h
      simp [this] at hmem
  | _ => simp at hmem

theorem FinishAt.of_waitWoken {l : Obj} {old : IntStatus} {ph : FinishPhase} (h : FinishAt t ph fs)
    (hmem : .waitWoken (.ofThread t) l old ∈ fs) : ph.rank = 4 ∨ ph.rank = 10 := by
  have hcalm : ∀ pre : List (Frame ρ), (∀ g ∈ pre, g.Calm) → .waitWoken (.ofThread t) l old ∉ pre :=
    fun pre => not_mem_of_calm (by simp [Frame.Calm])
  cases h with
  | out fs h => exact absurd (.inl rfl) (h _ hmem)
  | acquire gs h => simp [h.not_waitWoken] at hmem
  | turn ph fs h =>
      cases h.of_waitWoken hmem (by simp)
      exact .inl rfl
  | exit ph fs h =>
      cases h.of_waitWoken hmem (by simp)
      exact .inr rfl
  | done pre h => simp [hcalm pre h] at hmem
  | completed pre h => simp [hcalm pre h] at hmem
  | _ => simp at hmem

theorem InCycle.ne_nil {l : Obj} {ph : CyclePhase} (h : InCycle l rest ph fs) : fs ≠ [] := by
  cases h with
  | wait gs h => simp [h.ne_nil]
  | _ => simp

theorem JoinAt.of_nil {ph : JoinPhase} (h : JoinAt (ρ := ρ) me t ph []) :
    ph = .out ∨ ph = .passed := by
  generalize hnil : ([] : List (Frame ρ)) = fs at h
  cases h with
  | out fs h => exact .inl rfl
  | passed fs h => exact .inr rfl
  | acquire gs h => simp at hnil
  | returns pre h => simp at hnil
  | cycle ph fs h => exact absurd hnil.symm h.ne_nil
  | _ => cases hnil

theorem FinishAt.of_nil {ph : FinishPhase} (h : FinishAt (ρ := ρ) t ph []) : ph = .out := by
  generalize hnil : ([] : List (Frame ρ)) = fs at h
  cases h with
  | out fs h => rfl
  | acquire gs h => simp at hnil
  | done pre h => simp at hnil
  | completed pre h => simp at hnil
  | turn ph fs h => exact absurd hnil.symm h.ne_nil
  | exit ph fs h => exact absurd hnil.symm h.ne_nil
  | _ => cases hnil

/-- In a `Signal` and the `Wait` that follows it, a thread is the current one up to its
`Sleep`. -/
theorem InCycle.parked {l : Obj} {ph : CyclePhase} (h : InCycle l rest ph fs)
    (hpark : fs = [] ∨ fs = [.setLevel .intOn] ∨ ∃ gs, fs = .afterSwitch :: gs)
    (henq : ∀ c l old, .waitEnqueue c l old ∉ fs) : ph = .asleep ∨ ph = .back := by
  cases h with
  | greet => simp at hpark
  | wait gs h =>
      cases h with
      | call => simp at hpark
      | release old => simp at hpark
      | enqueue pre h old => exact absurd (by simp) (henq l l old)
  | asleep pre h old => exact .inl rfl
  | acquire gs h => exact .inr rfl
  | returns => exact .inr rfl

end

namespace Handshake

open Kernel

variable {ρ δ α : Type} {cl : Client ρ δ α} {k k' : Kernel ρ δ} {lab : Label α} {p c : Tid}
  {jp : JoinPhase} {fp : FinishPhase}

theorem join_parked (h : Handshake p c jp fp k) (ht : k.Tidy) (hat : k.Atomic)
    (hp : p ≠ k.currentThread) : jp.rank < 2 ∨ 4 ≤ jp.rank := by
  have hpark := ht.parked p hp
  have henq : ∀ c l old, .waitEnqueue c l old ∉ k.stack p :=
    fun c l old hmem => hp (hat p c l old hmem).current
  have hjoin := h.join
  generalize k.stack p = fs at hpark henq hjoin
  cases hjoin with
  | cycle ph fs h =>
      rcases h.parked hpark henq with rfl | rfl
      · simp [JoinPhase.rank]
      · simp [JoinPhase.rank]
  | _ => simp [JoinPhase.rank]

theorem finish_parked (h : Handshake p c jp fp k) (ht : k.Tidy) (hat : k.Atomic)
    (hc : c ≠ k.currentThread) : fp.rank < 2 ∨ 4 ≤ fp.rank ∧ fp.rank < 8 ∨ 10 ≤ fp.rank := by
  have hpark := ht.parked c hc
  have henq : ∀ c' l old, .waitEnqueue c' l old ∉ k.stack c :=
    fun c' l old hmem => hc (hat c c' l old hmem).current
  have hfinish := h.finish
  generalize k.stack c = fs at hpark henq hfinish
  cases hfinish with
  | turn ph fs h =>
      rcases h.parked hpark henq with rfl | rfl
      · simp [FinishPhase.rank]
      · simp [FinishPhase.rank]
  | exit ph fs h =>
      rcases h.parked hpark henq with rfl | rfl
      · simp [FinishPhase.rank]
      · simp [FinishPhase.rank]
  | _ => simp [FinishPhase.rank]

theorem waitWoken_of_mem (hp : k.Placed) {t u : Tid}
    (hmem : u ∈ (k.queue (.condition (.ofThread t))).map Keyed.item) :
    ∃ l old, .waitWoken (.ofThread t) l old ∈ k.stack u := by
  obtain ⟨f, hf, hhome⟩ := inLoop_of_mem hp (by simp) hmem
  cases f with
  | waitWoken c l old =>
      obtain rfl : c = .ofThread t := by simpa [Frame.home] using hhome
      exact ⟨l, old, hf⟩
  | _ => simp [Frame.home] at hhome

theorem join_of_mem (h : Handshake p c jp fp k) (hp : k.Placed)
    (hmem : p ∈ (k.queue (.condition (.ofThread c))).map Keyed.item) : jp.rank = 4 := by
  obtain ⟨l, old, hmem⟩ := waitWoken_of_mem hp hmem
  exact h.join.of_waitWoken hmem

theorem finish_of_mem (h : Handshake p c jp fp k) (hp : k.Placed)
    (hmem : c ∈ (k.queue (.condition (.ofThread c))).map Keyed.item) :
    fp.rank = 4 ∨ fp.rank = 10 := by
  obtain ⟨l, old, hmem⟩ := waitWoken_of_mem hp hmem
  exact h.finish.of_waitWoken hmem

/-- Only the two threads are on the queue. -/
theorem mem_queue (hp : k.Placed) (hex : k.Exclusive)
    (honly : ∀ u, .joinCalled u c ∈ k.log → u = p) {u : Tid}
    (hmem : u ∈ (k.queue (.condition (.ofThread c))).map Keyed.item) : u = p ∨ u = c := by
  obtain ⟨l, old, hmem⟩ := waitWoken_of_mem hp hmem
  rcases hex u c _ hmem (.inl rfl) with h | ⟨h, -⟩
  · exact .inl (honly u h)
  · exact .inr h

theorem join_other (hp : k.Placed) (ht : k.Tidy) (hk' : step cl k lab = .ok k')
    (hpc : p ≠ k.currentThread) (h : JoinAt p c jp (k.stack p)) : JoinAt p c jp (k'.stack p) := by
  rcases step_stack_cases hp.current_lt hk' p with heq | ⟨rfl, -⟩ | ⟨hlt, -, heq⟩
  · exact heq ▸ h
  · exact absurd rfl hpc
  · rw [ht.fresh p hlt] at h
    rw [heq]
    rcases h.of_nil with rfl | rfl
    · exact .out _ (by simp [Frame.Touches])
    · exact .passed _ (by simp [Frame.Touches])

theorem finish_other (hp : k.Placed) (ht : k.Tidy) (hk' : step cl k lab = .ok k')
    (hcc : c ≠ k.currentThread) (h : FinishAt c fp (k.stack c)) : FinishAt c fp (k'.stack c) := by
  rcases step_stack_cases hp.current_lt hk' c with heq | ⟨rfl, -⟩ | ⟨hlt, -, heq⟩
  · exact heq ▸ h
  · exact absurd rfl hcc
  · rw [ht.fresh c hlt] at h
    rw [heq]
    cases h.of_nil
    exact .out _ (by simp [Frame.Touches])

/-- A thread inside `Finish` stays joinable or not. -/
theorem joinable (h : Handshake p c jp fp k) (ht : k.Tidy)
    (hinner : ∀ t o, .call o ∈ k.stack t → o.isInner = true) (hk' : step cl k lab = .ok k')
    (hf : 1 ≤ fp.rank) : k'.join c = k.join c := by
  have hne : k.stack c ≠ [] := by
    intro hnil
    have hfinish := h.finish
    rw [hnil] at hfinish
    cases hfinish.of_nil
    simp [FinishPhase.rank] at hf
  have hlt : c ≠ k.numThreads := by
    rintro rfl
    exact hne (ht.fresh _ le_rfl)
  rcases step_program hinner hk' with ⟨a, o, pc, data, -, -, -, -, he⟩ | ⟨a, -, he⟩ | ⟨-, hq⟩
  · rcases exec_program he with hq | ⟨j, start, -, -, -, -, hj⟩
    · rw [hq.join]
      rfl
    · rw [hj]
      exact Function.update_of_ne hlt _ _
  · obtain ⟨sems, data, -, hq⟩ := handle_program he
    rw [hq.join]
  · rw [hq.join]

/-- A move that leaves the marks alone. -/
theorem of_marks {jp' : JoinPhase} {fp' : FinishPhase} (h : Handshake p c jp fp k)
    (hs : SameMarks c k k') (hj : JoinAt p c jp' (k'.stack p)) (hf : FinishAt c fp' (k'.stack c))
    (hjo : 1 ≤ fp.rank → k'.join c = k.join c)
    (hjp : (2 ≤ jp.rank ↔ 2 ≤ jp'.rank) ∧ (1 ≤ jp.rank ↔ 1 ≤ jp'.rank) ∧
      (jp.rank = 8 → jp'.rank = 8))
    (hfp : (1 ≤ fp.rank ↔ 1 ≤ fp'.rank) ∧ (fp.rank = 13 → fp'.rank = 13))
    (hfits : Fits jp'.rank fp'.rank (p ∈ (k'.queue (.condition (.ofThread c))).map Keyed.item)
      (c ∈ (k'.queue (.condition (.ofThread c))).map Keyed.item) (k.join c ≠ 0)) :
    Handshake p c jp' fp' k' := by
  obtain ⟨hready, hcalled, hreturned⟩ := hjp
  obtain ⟨hfinish, hcompleted⟩ := hfp
  refine ⟨hj, hf, ?_, ?_, ?_, ?_, ?_, ?_⟩
  · rw [hs.readyToJoin, h.ready, hready]
  · rw [hs.joinCalled, h.joinCalled, hcalled]
  · rw [hs.joinReturned]
    exact fun hmem => hreturned (h.joinReturned hmem)
  · rw [hs.finishCalled, h.finishCalled, hfinish]
  · rw [hs.finishCompleted]
    exact fun hmem => hcompleted (h.finishCompleted hmem)
  · by_cases hfp : 1 ≤ fp.rank
    · rwa [hjo hfp]
    · have hfp' : ¬ 1 ≤ fp'.rank := fun hfp' => hfp (hfinish.2 hfp')
      exact ⟨hfits.turning, hfits.asleep, fun _ => by omega, fun _ => by omega,
        fun _ => by omega, fun _ => by omega, hfits.served⟩

/-- A move that leaves the queue alone, too. -/
theorem of_spared {jp' : JoinPhase} {fp' : FinishPhase} (h : Handshake p c jp fp k)
    (hs : Spared c k k') (hj : JoinAt p c jp' (k'.stack p)) (hf : FinishAt c fp' (k'.stack c))
    (hjo : 1 ≤ fp.rank → k'.join c = k.join c)
    (hjp : (2 ≤ jp.rank ↔ 2 ≤ jp'.rank) ∧ (1 ≤ jp.rank ↔ 1 ≤ jp'.rank) ∧
      (jp.rank = 8 → jp'.rank = 8))
    (hfp : (1 ≤ fp.rank ↔ 1 ≤ fp'.rank) ∧ (fp.rank = 13 → fp'.rank = 13))
    (hfits : Fits jp'.rank fp'.rank (p ∈ (k.queue (.condition (.ofThread c))).map Keyed.item)
      (c ∈ (k.queue (.condition (.ofThread c))).map Keyed.item) (k.join c ≠ 0)) :
    Handshake p c jp' fp' k' :=
  h.of_marks hs.toSameMarks hj hf hjo hjp hfp (hs.queue ▸ hfits)

theorem stay (h : Handshake p c jp fp k) (hs : Spared c k k') (hj : JoinAt p c jp (k'.stack p))
    (hf : FinishAt c fp (k'.stack c)) (hjo : 1 ≤ fp.rank → k'.join c = k.join c) :
    Handshake p c jp fp k' :=
  h.of_spared hs hj hf hjo ⟨Iff.rfl, Iff.rfl, id⟩ ⟨Iff.rfl, id⟩ h.fits

/-- A step of a third thread. -/
theorem step_other (h : Handshake p c jp fp k) (hp : k.Placed) (ht : k.Tidy) (hex : k.Exclusive)
    (hinner : ∀ t o, .call o ∈ k.stack t → o.isInner = true) (hk' : step cl k lab = .ok k')
    (honly : ∀ u, .joinCalled u c ∈ k'.log → u = p) (hpc : p ≠ k.currentThread)
    (hcc : c ≠ k.currentThread) : Handshake p c jp fp k' := by
  have hs : Spared c k k' := by
    rcases step_mark hk' with ⟨f, rest, hs, hm⟩ | ⟨a, o, pc, data, -, hs, -, hpub, -, hm⟩
    · refine .of_frame hp ht hinner hk' hs (Frame.spares_of_not_touches ?_ ?_)
      · intro htouch
        rcases hex _ c f (by simp [hs]) htouch with hmem | ⟨hcur, -⟩
        · exact hpc (honly _ (mem_log_of_step hk' rfl hmem)).symm
        · exact hcc hcur.symm
      · rintro o rfl
        exact hinner k.currentThread o (by simp [hs])
    · refine .of_own hp ht hinner hk' hs (Call.spares_of_public hpub ?_ ?_) hm
      · rintro rfl
        exact hpc (honly _ ((hm.mem_log rfl).2 (by simp [mark]))).symm
      · exact fun _ => hcc.symm
  exact h.stay hs (join_other hp ht hk' hpc h.join) (finish_other hp ht hk' hcc h.finish)
    (h.joinable ht hinner hk')

/-- A signal of one of the two threads leaves nobody on the queue. -/
theorem queue_of_signal (hp : k.Placed) (hex : k.Exclusive)
    (honly : ∀ u, .joinCalled u c ∈ k.log → u = p) (hk' : step cl k lab = .ok k')
    (hcur : k.currentThread = p ∨ k.currentThread = c) {l : Obj} {rest : List (Frame ρ)}
    (hs : k.stack k.currentThread = .call (.signal (.ofThread c) l) :: rest) (u : Tid) :
    u ∉ (k'.queue (.condition (.ofThread c))).map Keyed.item := by
  have hself := not_mem_queue_of_top hp hs (by simp) (.condition (.ofThread c))
  have hmem : ∃ v, ∀ w ∈ (k.queue (.condition (.ofThread c))).map Keyed.item, w = v := by
    rcases hcur with hcur | hcur
    · refine ⟨c, fun w hw => ?_⟩
      rcases mem_queue hp hex honly hw with rfl | rfl
      · exact absurd (hcur ▸ hw) hself
      · rfl
    · refine ⟨p, fun w hw => ?_⟩
      rcases mem_queue hp hex honly hw with rfl | rfl
      · rfl
      · exact absurd (hcur ▸ hw) hself
  obtain ⟨v, hv⟩ := hmem
  rw [Kernel.queue_of_signal hk' hs, tail_queue_eq_nil hp hv]
  simp

/-- A move of one of the two threads in `cv->Signal(lock); cv->Wait(lock);`. -/
theorem cycle_cases (hp : k.Placed) (ht : k.Tidy) (hex : k.Exclusive)
    (hinner : ∀ t o, .call o ∈ k.stack t → o.isInner = true) (hk' : step cl k lab = .ok k')
    (honly : ∀ u, .joinCalled u c ∈ k.log → u = p)
    (hcur : k.currentThread = p ∨ k.currentThread = c) {f : Frame ρ} {rest : List (Frame ρ)}
    (hs : k.stack k.currentThread = f :: rest) {ph ph' : CyclePhase}
    (hmove : CycleMove k.currentThread c ph f ph') :
    ph' = ph ∧ Spared c k k' ∨
      ph = .greeting ∧ ph' = .waiting ∧ SameMarks c k k' ∧
        (∀ u, u ∉ (k'.queue (.condition (.ofThread c))).map Keyed.item) ∨
      ph = .waiting ∧ ph' = .asleep ∧ SameMarks c k k' ∧
        (∀ u, u ∈ (k'.queue (.condition (.ofThread c))).map Keyed.item ↔
          u = k.currentThread ∨ u ∈ (k.queue (.condition (.ofThread c))).map Keyed.item) ∨
      ph = .asleep ∧ ph' = .back ∧ Spared c k k' ∧
        k.currentThread ∉ (k.queue (.condition (.ofThread c))).map Keyed.item := by
  have hm := unmarked_top hk' hs
  cases hmove with
  | stay _ _ hspare => exact .inl ⟨rfl, .of_frame hp ht hinner hk' hs hspare⟩
  | greet =>
      exact .inr (.inl ⟨rfl, rfl, hm.sameMarks c, queue_of_signal hp hex honly hk' hcur hs⟩)
  | sleep old =>
      exact .inr (.inr (.inl ⟨rfl, rfl, hm.sameMarks c, mem_queue_of_waitEnqueue hk' hs⟩))
  | wake old =>
      exact .inr (.inr (.inr ⟨rfl, rfl, .of_frame hp ht hinner hk' hs trivial,
        not_mem_queue_of_top hp hs (by simp) _⟩))

/-- The call of `Join`, and what the thread does in its own code before and after it. -/
theorem step_join_own (h : Handshake k.currentThread c jp fp k) (hp : k.Placed) (ht : k.Tidy)
    (hinner : ∀ t o, .call o ∈ k.stack t → o.isInner = true) (hk' : step cl k lab = .ok k')
    (hcc : c ≠ k.currentThread) (hs : k.stack k.currentThread = []) :
    ∃ jp', Handshake k.currentThread c jp' fp k' := by
  have hf := finish_other hp ht hk' hcc h.finish
  have hjo := h.joinable ht hinner hk'
  rcases step_mark hk' with ⟨f, rest, hs', -⟩ | ⟨a, o, pc, data, -, -, -, hpub, he, hm⟩
  · simp [hs] at hs'
  obtain ⟨new, hn, hpush⟩ := exec_pushes (k := k.advance pc data) hp.current_lt he
  have hnew : k'.stack k.currentThread = new := by
    rw [hpush.stack]
    simp [hs]
  by_cases ho : o = .join c
  · subst ho
    cases hn
    simp only [exec, joinCall, assertThen_ok, Except.ok.injEq] at he
    obtain ⟨⟨-, hready, -, -⟩, rfl⟩ := he
    have hjp : jp = .out := by
      have hjoin := h.join
      rw [hs] at hjoin
      rcases hjoin.of_nil with rfl | rfl
      · rfl
      · have := h.ready.2 (by simp [JoinPhase.rank])
        simp [this] at hready
    subst hjp
    have hr := h.ready
    refine ⟨.entering, ?_, hf, ?_, ?_, ?_, ?_, ?_, ?_⟩
    · rw [hnew]
      exact .acquire [_] (.call [] (by simp))
    · simpa [JoinPhase.rank] using hr
    · simp [JoinPhase.rank]
    · simpa [JoinPhase.rank] using h.joinReturned
    · simpa using h.finishCalled
    · simpa using h.finishCompleted
    · have hfits := h.fits
      simp only [JoinPhase.rank] at hfits ⊢
      constructor <;> grind [Fits]
  · have hspare : Spared c k k' :=
      .of_own hp ht hinner hk' hs (Call.spares_of_public hpub ho fun _ => hcc.symm) hm
    have htouch : ∀ f ∈ k'.stack k.currentThread, ¬ f.Touches k.currentThread c := by
      intro f hmem hf
      rw [hnew] at hmem
      rcases hn.touches hmem hf with hto | hjoin | ⟨-, hcur⟩
      · exact o.not_touches hpub c hto
      · exact ho hjoin
      · exact hcc hcur.symm
    have hjoin := h.join
    rw [hs] at hjoin
    rcases hjoin.of_nil with rfl | rfl
    · exact ⟨.out, h.stay hspare (.out _ htouch) hf hjo⟩
    · exact ⟨.passed, h.stay hspare (.passed _ htouch) hf hjo⟩

/-- A step inside `Join`. -/
theorem step_join_frame (h : Handshake k.currentThread c jp fp k) (hp : k.Placed) (ht : k.Tidy)
    (hat : k.Atomic) (hex : k.Exclusive) (hinner : ∀ t o, .call o ∈ k.stack t → o.isInner = true)
    (hk' : step cl k lab = .ok k') (honly : ∀ u, .joinCalled u c ∈ k.log → u = k.currentThread)
    (hcc : c ≠ k.currentThread) {f : Frame ρ} {rest : List (Frame ρ)}
    (hs : k.stack k.currentThread = f :: rest) : ∃ jp', Handshake k.currentThread c jp' fp k' := by
  have hf := finish_other hp ht hk' hcc h.finish
  have hjoin : k'.join c = k.join c := by rw [join_of_top hinner hk' (by simp [hs])]
  have hjo : 1 ≤ fp.rank → k'.join c = k.join c := fun _ => hjoin
  have hpark := h.finish_parked ht hat hcc
  have hfits := h.fits
  have hm := unmarked_top hk' hs
  obtain ⟨new, hn, hnew⟩ := next_of_top hp hk' hs
  obtain ⟨jp', hmove, hj⟩ : ∃ jp', JoinMove k.currentThread c jp f jp' ∧
      JoinAt k.currentThread c jp' (k'.stack k.currentThread) := by
    rw [hnew]
    refine JoinAt.next (hs ▸ h.join) hn ?_
    rintro o rfl
    exact hinner k.currentThread o (by simp [hs])
  refine ⟨jp', ?_⟩
  cases hmove with
  | stay _ _ hspare => exact h.stay (.of_frame hp ht hinner hk' hs hspare) hj hf hjo
  | body =>
      have hq := queue_of_top (t := c) hp ht hinner hk' hs (by simp) (by simp)
      refine ⟨hj, hf, ?_, ?_, ?_, ?_, ?_, ?_⟩
      · rw [hm.readyToJoin]
        simp [mark, JoinPhase.rank]
      · rw [hm.mem_log rfl]
        simpa [mark, JoinPhase.rank] using h.joinCalled
      · rw [hm.mem_log rfl]
        intro hmem
        simpa [JoinPhase.rank] using h.joinReturned hmem
      · rw [hm.mem_log rfl]
        exact h.finishCalled
      · rw [hm.mem_log rfl]
        exact h.finishCompleted
      · rw [hq, hjoin]
        simp only [JoinPhase.rank] at hfits ⊢
        constructor <;> grind [Fits]
  | back _ hspare =>
      have hsp : Spared c k k' := .of_frame hp ht hinner hk' hs hspare
      refine h.of_spared hsp hj hf hjo (by simp [JoinPhase.rank]) ⟨Iff.rfl, id⟩ ?_
      simp only [JoinPhase.rank] at hfits ⊢
      constructor <;> grind [Fits]
  | bye =>
      have hq := queue_of_signal hp hex honly hk' (.inl rfl) hs
      have h₁ := hq k.currentThread
      have h₂ := hq c
      refine h.of_marks (hm.sameMarks c) hj hf hjo (by simp [JoinPhase.rank]) ⟨Iff.rfl, id⟩ ?_
      simp only [JoinPhase.rank] at hfits ⊢
      constructor <;> grind [Fits]
  | returns =>
      have hq := queue_of_top (t := c) hp ht hinner hk' hs (by simp) (by simp)
      refine ⟨hj, hf, ?_, ?_, ?_, ?_, ?_, ?_⟩
      · rw [hm.readyToJoin]
        simpa [mark, JoinPhase.rank] using h.ready
      · rw [hm.mem_log rfl]
        simpa [mark, JoinPhase.rank] using h.joinCalled
      · simp [JoinPhase.rank]
      · rw [hm.mem_log rfl]
        simpa [mark] using h.finishCalled
      · rw [hm.mem_log rfl]
        simpa [mark] using h.finishCompleted
      · rw [hq, hjoin]
        simp only [JoinPhase.rank] at hfits ⊢
        constructor <;> grind [Fits]
  | cycle ph ph' f hmove =>
      rcases cycle_cases hp ht hex hinner hk' honly (.inl rfl) hs hmove with ⟨rfl, hsp⟩ |
        ⟨rfl, rfl, hm, hq⟩ | ⟨rfl, rfl, hm, hq⟩ | ⟨rfl, rfl, hsp, hself⟩
      · exact h.stay hsp hj hf hjo
      · have h₁ := hq k.currentThread
        have h₂ := hq c
        refine h.of_marks hm hj hf hjo (by simp [JoinPhase.rank]) ⟨Iff.rfl, id⟩ ?_
        simp only [JoinPhase.rank] at hfits ⊢
        constructor <;> grind [Fits]
      · have h₁ := (hq k.currentThread).2 (.inl rfl)
        have h₂ := hq c
        refine h.of_marks hm hj hf hjo (by simp [JoinPhase.rank]) ⟨Iff.rfl, id⟩ ?_
        simp only [JoinPhase.rank] at hfits ⊢
        constructor <;> grind [Fits]
      · refine h.of_spared hsp hj hf hjo (by simp [JoinPhase.rank]) ⟨Iff.rfl, id⟩ ?_
        simp only [JoinPhase.rank] at hfits ⊢
        constructor <;> grind [Fits]

/-- The call of `Finish`, and what the thread does in its own code before it. -/
theorem step_finish_own (h : Handshake p k.currentThread jp fp k) (hp : k.Placed) (ht : k.Tidy)
    (hinner : ∀ t o, .call o ∈ k.stack t → o.isInner = true) (hk' : step cl k lab = .ok k')
    (hpc : p ≠ k.currentThread) (hs : k.stack k.currentThread = []) :
    ∃ fp', Handshake p k.currentThread jp fp' k' := by
  have hj := join_other hp ht hk' hpc h.join
  have hjo := h.joinable ht hinner hk'
  have hfp : fp = .out := by
    have hfinish := h.finish
    rw [hs] at hfinish
    exact hfinish.of_nil
  subst hfp
  rcases step_mark hk' with ⟨f, rest, hs', -⟩ | ⟨a, o, pc, data, -, -, -, hpub, he, hm⟩
  · simp [hs] at hs'
  obtain ⟨new, hn, hpush⟩ := exec_pushes (k := k.advance pc data) hp.current_lt he
  have hnew : k'.stack k.currentThread = new := by
    rw [hpush.stack]
    simp [hs]
  by_cases ho : o = .finish
  · subst ho
    cases hn
    cases he
    refine ⟨.entering, hj, ?_, ?_, ?_, ?_, ?_, ?_, ?_⟩
    · rw [hnew]
      exact .acquire [_] (.call [] (by simp))
    · exact h.ready
    · simpa [Kernel.finish] using h.joinCalled
    · simpa [Kernel.finish] using h.joinReturned
    · simp [Kernel.finish, FinishPhase.rank]
    · simpa [Kernel.finish, FinishPhase.rank] using h.finishCompleted
    · have hfits := h.fits
      simp only [FinishPhase.rank] at hfits ⊢
      constructor <;> grind [Fits]
  · have hjoin : o ≠ .join k.currentThread := by
      rintro rfl
      simp only [exec, joinCall, assertThen_ok] at he
      exact he.1.2.2.1 rfl
    have hspare : Spared k.currentThread k k' :=
      .of_own hp ht hinner hk' hs (Call.spares_of_public hpub hjoin fun hf => absurd hf ho) hm
    refine ⟨.out, h.stay hspare hj (.out _ ?_) hjo⟩
    intro f hmem hf
    rw [hnew] at hmem
    rcases hn.touches hmem hf with hto | hjoin' | ⟨hfin, -⟩
    · exact o.not_touches hpub _ hto
    · exact hjoin hjoin'
    · exact ho hfin

/-- The loop test of `Finish`. -/
theorem finishLoop_cases (hk' : step cl k lab = .ok k') {rest : List (Frame ρ)}
    (hs : k.stack k.currentThread = .finishLoop :: rest) (t : Obj)
    (ht : t = .ofThread k.currentThread) :
    k.readyToJoin k.currentThread = false ∧ k'.stack k.currentThread =
        .call (.signal t t) :: .call (.wait t t) :: .call (.signal t t) :: .finishLoop :: rest ∨
      k.readyToJoin k.currentThread = true ∧ k'.stack k.currentThread =
        .call (.signal t t) :: .call (.wait t t) :: .call (.release t) :: .finishDone :: rest ∨
        k.join k.currentThread = 0 ∧ k'.stack k.currentThread =
          .call (.signal t t) :: .call (.release t) :: .finishDone :: rest := by
  subst ht
  have hr := resume_of_top hk' hs (by simp)
  cases lab with
  | go =>
      cases hr
      unfold finishLoop
      split
      · rename_i hcond
        exact .inl ⟨hcond.1, by simp⟩
      · split
        · rename_i hcond hjoin
          refine .inr (.inl ⟨?_, by simp⟩)
          simp only [setStack_readyToJoin, setStack_currentThread, setStack_join, not_and, not_not]
            at hcond hjoin
          by_contra hready
          exact hjoin (hcond (by simpa using hready))
        · rename_i hjoin
          exact .inr (.inr ⟨by simpa using hjoin, by simp⟩)
  | _ => cases hr

/-- The test of the loop of `Finish`. -/
theorem step_finish_loop (h : Handshake p k.currentThread jp .entering k) (hp : k.Placed)
    (ht : k.Tidy) (hat : k.Atomic) (hinner : ∀ t o, .call o ∈ k.stack t → o.isInner = true)
    (hk' : step cl k lab = .ok k') (hpc : p ≠ k.currentThread)
    (hs : k.stack k.currentThread = [.finishLoop]) :
    ∃ fp', Handshake p k.currentThread jp fp' k' := by
  have hj := join_other hp ht hk' hpc h.join
  have hjo : 1 ≤ FinishPhase.entering.rank →
      k'.join k.currentThread = k.join k.currentThread := fun _ => by
    rw [join_of_top hinner hk' (by simp [hs])]
  have hpark := h.join_parked ht hat hpc
  have hpq := h.join_of_mem hp
  have hfits := h.fits
  have hm := unmarked_top hk' hs
  have hq := queue_of_top (t := k.currentThread) hp ht hinner hk' hs (by simp) (by simp)
  have hready := h.ready
  rcases finishLoop_cases hk' hs _ rfl with ⟨hr, hstack⟩ | ⟨hr, hstack⟩ | ⟨hj0, hstack⟩
  · have hf : FinishAt k.currentThread (.turn .greeting) (k'.stack k.currentThread) := by
      rw [hstack]
      exact .turn _ _ .greet
    refine ⟨.turn .greeting, h.of_marks (hm.sameMarks _) hj hf hjo ⟨Iff.rfl, Iff.rfl, id⟩
      (by simp [FinishPhase.rank]) ?_⟩
    rw [hq]
    simp only [FinishPhase.rank] at hfits ⊢
    constructor <;> grind [Fits]
  · have hf : FinishAt k.currentThread (.exit .greeting) (k'.stack k.currentThread) := by
      rw [hstack]
      exact .exit _ _ .greet
    refine ⟨.exit .greeting, h.of_marks (hm.sameMarks _) hj hf hjo ⟨Iff.rfl, Iff.rfl, id⟩
      (by simp [FinishPhase.rank]) ?_⟩
    rw [hq]
    simp only [FinishPhase.rank] at hfits ⊢
    constructor <;> grind [Fits]
  · have hf : FinishAt k.currentThread .drop (k'.stack k.currentThread) := by
      rw [hstack]
      exact .drop
    refine ⟨.drop, h.of_marks (hm.sameMarks _) hj hf hjo ⟨Iff.rfl, Iff.rfl, id⟩
      (by simp [FinishPhase.rank]) ?_⟩
    rw [hq]
    simp only [FinishPhase.rank] at hfits ⊢
    constructor <;> grind [Fits]

/-- A step inside `Finish`. -/
theorem step_finish_frame (h : Handshake p k.currentThread jp fp k) (hp : k.Placed) (ht : k.Tidy)
    (hat : k.Atomic) (hex : k.Exclusive) (hinner : ∀ t o, .call o ∈ k.stack t → o.isInner = true)
    (hk' : step cl k lab = .ok k') (honly : ∀ u, .joinCalled u k.currentThread ∈ k.log → u = p)
    (hpc : p ≠ k.currentThread) {f : Frame ρ} {rest : List (Frame ρ)}
    (hs : k.stack k.currentThread = f :: rest) : ∃ fp', Handshake p k.currentThread jp fp' k' := by
  have hj := join_other hp ht hk' hpc h.join
  have hjoin : k'.join k.currentThread = k.join k.currentThread := by
    rw [join_of_top hinner hk' (by simp [hs])]
  have hjo : 1 ≤ fp.rank → k'.join k.currentThread = k.join k.currentThread := fun _ => hjoin
  have hpark := h.join_parked ht hat hpc
  have hpq := h.join_of_mem hp
  have hfits := h.fits
  have hm := unmarked_top hk' hs
  obtain ⟨new, hn, hnew⟩ := next_of_top hp hk' hs
  have hnext : (∃ fp', FinishMove k.currentThread fp f fp' ∧
      FinishAt k.currentThread fp' (k'.stack k.currentThread)) ∨
        fp = .entering ∧ f = .finishLoop ∧ rest = [] := by
    rw [hnew]
    refine FinishAt.next (hs ▸ h.finish) hn ?_
    rintro o rfl
    exact hinner k.currentThread o (by simp [hs])
  rcases hnext with ⟨fp', hmove, hf⟩ | ⟨rfl, rfl, rfl⟩
  · refine ⟨fp', ?_⟩
    cases hmove with
    | stay _ _ hspare => exact h.stay (.of_frame hp ht hinner hk' hs hspare) hj hf hjo
    | turned _ hspare | exited _ hspare =>
        have hsp : Spared k.currentThread k k' := .of_frame hp ht hinner hk' hs hspare
        refine h.of_spared hsp hj hf hjo ⟨Iff.rfl, Iff.rfl, id⟩ (by simp [FinishPhase.rank]) ?_
        simp only [FinishPhase.rank] at hfits ⊢
        constructor <;> grind [Fits]
    | again | drop =>
        have hq := queue_of_signal hp hex honly hk' (.inr rfl) hs
        have h₁ := hq k.currentThread
        have h₂ := hq p
        refine h.of_marks (hm.sameMarks _) hj hf hjo ⟨Iff.rfl, Iff.rfl, id⟩
          (by simp [FinishPhase.rank]) ?_
        simp only [FinishPhase.rank] at hfits ⊢
        constructor <;> grind [Fits]
    | done =>
        have hq := queue_of_top (t := k.currentThread) hp ht hinner hk' hs (by simp) (by simp)
        refine ⟨hj, hf, ?_, ?_, ?_, ?_, ?_, ?_⟩
        · rw [hm.readyToJoin]
          exact h.ready
        · rw [hm.mem_log rfl]
          simpa [mark] using h.joinCalled
        · rw [hm.mem_log rfl]
          simpa [mark] using h.joinReturned
        · rw [hm.mem_log rfl]
          simpa [mark, FinishPhase.rank] using h.finishCalled
        · simp [FinishPhase.rank]
        · rw [hq, hjoin]
          simp only [FinishPhase.rank] at hfits ⊢
          constructor <;> grind [Fits]
    | turn ph ph' f hmove | exit ph ph' f hmove =>
        -- the body of the loop and the last round after it share their moves
        rcases cycle_cases hp ht hex hinner hk' honly (.inr rfl) hs hmove with ⟨rfl, hsp⟩ |
          ⟨rfl, rfl, hm, hq⟩ | ⟨rfl, rfl, hm, hq⟩ | ⟨rfl, rfl, hsp, hself⟩
        · exact h.stay hsp hj hf hjo
        · have h₁ := hq k.currentThread
          have h₂ := hq p
          refine h.of_marks hm hj hf hjo ⟨Iff.rfl, Iff.rfl, id⟩ (by simp [FinishPhase.rank]) ?_
          simp only [FinishPhase.rank] at hfits ⊢
          constructor <;> grind [Fits]
        · have h₁ := (hq k.currentThread).2 (.inl rfl)
          have h₂ := hq p
          refine h.of_marks hm hj hf hjo ⟨Iff.rfl, Iff.rfl, id⟩ (by simp [FinishPhase.rank]) ?_
          simp only [FinishPhase.rank] at hfits ⊢
          constructor <;> grind [Fits]
        · refine h.of_spared hsp hj hf hjo ⟨Iff.rfl, Iff.rfl, id⟩ (by simp [FinishPhase.rank]) ?_
          simp only [FinishPhase.rank] at hfits ⊢
          constructor <;> grind [Fits]
  · exact h.step_finish_loop hp ht hat hinner hk' hpc hs

theorem init (p c : Tid) (start : ρ) (data : δ) (initialValue : ℕ → ℤ) :
    Handshake p c .out .out (Kernel.init start data initialValue) where
  join := .out _ (by simp [Kernel.init])
  finish := .out _ (by simp [Kernel.init])
  ready := by simp [Kernel.init, JoinPhase.rank]
  joinCalled := by simp [Kernel.init, JoinPhase.rank]
  joinReturned := by simp [Kernel.init]
  finishCalled := by simp [Kernel.init, FinishPhase.rank]
  finishCompleted := by simp [Kernel.init]
  fits := by
    simp only [JoinPhase.rank, FinishPhase.rank]
    constructor <;> grind

theorem step (h : Handshake p c jp fp k) (hne : p ≠ c) (hp : k.Placed) (ht : k.Tidy)
    (hat : k.Atomic) (hex : k.Exclusive) (hinner : ∀ t o, .call o ∈ k.stack t → o.isInner = true)
    (hk' : Kernel.step cl k lab = .ok k') (honly : ∀ u, .joinCalled u c ∈ k'.log → u = p) :
    ∃ jp' fp', Handshake p c jp' fp' k' := by
  have honly₀ : ∀ u, .joinCalled u c ∈ k.log → u = p :=
    fun u hu => honly u (mem_log_of_step hk' rfl hu)
  by_cases hpc : p = k.currentThread
  · subst hpc
    cases hs : k.stack k.currentThread with
    | nil =>
        obtain ⟨jp', h'⟩ := h.step_join_own hp ht hinner hk' hne.symm hs
        exact ⟨jp', fp, h'⟩
    | cons f rest =>
        obtain ⟨jp', h'⟩ := h.step_join_frame hp ht hat hex hinner hk' honly₀ hne.symm hs
        exact ⟨jp', fp, h'⟩
  · by_cases hcc : c = k.currentThread
    · subst hcc
      cases hs : k.stack k.currentThread with
      | nil =>
          obtain ⟨fp', h'⟩ := h.step_finish_own hp ht hinner hk' hne hs
          exact ⟨jp, fp', h'⟩
      | cons f rest =>
          obtain ⟨fp', h'⟩ := h.step_finish_frame hp ht hat hex hinner hk' honly₀ hne hs
          exact ⟨jp, fp', h'⟩
    · exact ⟨jp, fp, h.step_other hp ht hex hinner hk' honly hpc hcc⟩

end Handshake

namespace Kernel

variable {ρ δ α : Type} {cl : Client ρ δ α} {start : ρ} {data : δ} {initialValue : ℕ → ℤ}
  {k : Kernel ρ δ} {p c : Tid}

theorem Runs.handshake (h : Runs cl start data initialValue k) (hne : p ≠ c)
    (honly : ∀ u, .joinCalled u c ∈ k.log → u = p) : ∃ jp fp, Handshake p c jp fp k := by
  refine Reachable.invariant
    (I := fun k => (∀ u, .joinCalled u c ∈ k.log → u = p) → ∃ jp fp, Handshake p c jp fp k)
    ?_ ?_ h honly
  · exact fun _ => ⟨.out, .out, .init p c start data initialValue⟩
  · intro k lab k' hk hi hs honly
    obtain ⟨jp, fp, h⟩ := hi fun u hu => honly u (mem_log_of_step hs rfl hu)
    exact h.step hne (Runs.placed hk) (Runs.tidy hk) (Runs.atomic hk) (Runs.exclusive hk)
      (Runs.inner hk) hs honly

/-- The thread `u` is asleep on the lock or on the condition of `t`. -/
def AsleepOn (k : Kernel ρ δ) (t u : Tid) : Prop :=
  u ∈ (k.queue (.lock (.ofThread t))).map Keyed.item ∨
    u ∈ (k.queue (.condition (.ofThread t))).map Keyed.item

theorem acquireRetest_of_mem (hp : k.Placed) {l : Obj} {u : Tid}
    (hmem : u ∈ (k.queue (.lock l)).map Keyed.item) : .acquireRetest l ∈ k.stack u := by
  obtain ⟨f, hf, hhome⟩ := inLoop_of_mem hp (by simp) hmem
  cases f with
  | acquireRetest l' =>
      obtain rfl : l' = l := by simpa [Frame.home] using hhome
      exact hf
  | _ => simp [Frame.home] at hhome

theorem AsleepOn.not_holder (h : Runs cl start data initialValue k) {t u : Tid}
    (ha : k.AsleepOn t u) : k.threadHeld (.ofThread t) ≠ some u := by
  rcases ha with hmem | hmem
  · exact ((h.lock (.ofThread t)).inside u (acquireRetest_of_mem h.placed hmem)).2
  · obtain ⟨l, old, hmem⟩ := Handshake.waitWoken_of_mem h.placed hmem
    obtain rfl : l = .ofThread t := h.paired u _ hmem
    exact h.unheld u _ _ old (.inl hmem)

/-- A thread that is asleep on the condition does not test the lock. -/
theorem not_acquireRetest_of_mem (h : Runs cl start data initialValue k) {t u : Tid} {l : Obj}
    (hmem : u ∈ (k.queue (.condition (.ofThread t))).map Keyed.item) :
    .acquireRetest l ∉ k.stack u := by
  intro htest
  obtain ⟨l', old, hwait⟩ := Handshake.waitWoken_of_mem h.placed hmem
  have habove := h.tidy.above u
  rcases home_of_mem habove htest rfl with ⟨rest, hs⟩ | ⟨rest, hs | hs⟩ <;>
    rcases home_of_mem habove hwait rfl with ⟨rest', hs'⟩ | ⟨rest', hs' | hs'⟩ <;>
      simp [hs] at hs'

theorem not_both_asleep (h : Runs cl start data initialValue k) (hne : p ≠ c) (hjoin : k.join c ≠ 0)
    (honly : ∀ u, .joinCalled u c ∈ k.log → u = p) : ¬ (k.AsleepOn c p ∧ k.AsleepOn c c) := by
  rintro ⟨hp, hc⟩
  have hasleep : ∀ u, .joinCalled u c ∈ k.log ∨ u = c ∧ .finishCalled c ∈ k.log →
      k.AsleepOn c u := by
    rintro u (hu | ⟨rfl, -⟩)
    · rwa [honly u hu]
    · exact hc
  have hfree : k.threadHeld (.ofThread c) = none := by
    cases hheld : k.threadHeld (.ofThread c) with
    | none => rfl
    | some u => exact absurd hheld ((hasleep u (h.holder hheld)).not_holder h)
  by_cases hq : k.queue (.lock (.ofThread c)) = []
  · obtain ⟨jp, fp, hs⟩ := h.handshake hne honly
    have hp' := hp.resolve_left (by simp [hq])
    have hc' := hc.resolve_left (by simp [hq])
    have hj := hs.join_of_mem h.placed hp'
    rcases hs.finish_of_mem h.placed hc' with hf | hf
    · have := hs.fits.asleep hf hc'
      omega
    · exact (hs.fits.closing (by omega) hjoin).2 hp'
  · have hl := h.lock (.ofThread c)
    obtain ⟨u, ⟨f, hf, hhome⟩, hu⟩ := hl.coming (by rw [hl.locked, hfree]; rfl) hq
    cases f with
    | acquireRetest l =>
        obtain rfl : l = .ofThread c := by simpa [Frame.home] using hhome
        have ha := hasleep u (h.exclusive u c _ hf rfl)
        exact not_acquireRetest_of_mem h (ha.resolve_left hu) hf
    | _ => simp [Frame.home] at hhome

/-- A thread `c` that can be joined and the one thread `p` that joins it: `Join` returns
after the call of `Finish`, `c` comes to the end of `Finish` after the call of `Join`, and
the two are not asleep on the members of `c` at the same time. -/
theorem join_handshake (cl : Client ρ δ α) (start : ρ) (data : δ) (initialValue : ℕ → ℤ)
    (k : Kernel ρ δ) (h : Runs cl start data initialValue k) (p c : Tid) (hne : p ≠ c)
    (hjoin : k.join c ≠ 0) (honly : ∀ u, .joinCalled u c ∈ k.log → u = p) :
    (∀ es, .joinReturned p c :: es <:+ k.log → .finishCalled c ∈ es) ∧
      (∀ es, .finishCompleted c :: es <:+ k.log → .joinCalled p c ∈ es) ∧
        (k.threadToBeDestroyed = some c → .joinCalled p c ∈ k.log) ∧
          ¬ (k.AsleepOn c p ∧ k.AsleepOn c c) := by
  have hold : ∀ k lab k', step cl k lab = .ok k' → (∀ u, .joinCalled u c ∈ k'.log → u = p) →
      ∀ u, .joinCalled u c ∈ k.log → u = p :=
    fun _ _ _ hs honly u hu => honly u (mem_log_of_step hs rfl hu)
  have hcompleted : ∀ k, Runs cl start data initialValue k →
      k.join c ≠ 0 ∧ (∀ u, .joinCalled u c ∈ k.log → u = p) → .finishCompleted c ∈ k.log →
        .joinCalled p c ∈ k.log := by
    rintro k h ⟨hjoin, honly⟩ hmem
    obtain ⟨jp, fp, hs⟩ := h.handshake hne honly
    have hf := hs.finishCompleted hmem
    exact hs.joinCalled.2 (by have := hs.fits.exiting (by omega) hjoin; omega)
  refine ⟨?_, ?_, ?_, not_both_asleep h hne hjoin honly⟩
  · refine fun es hes => h.before rfl rfl (by simp)
      (Q := fun k => ∀ u, .joinCalled u c ∈ k.log → u = p) ?_ ?_ honly hes
    · exact fun k lab k' _ hs _ => hold k lab k' hs
    · intro k h honly hmem
      obtain ⟨jp, fp, hs⟩ := h.handshake hne honly
      have hj := hs.joinReturned hmem
      exact hs.finishCalled.2 (hs.fits.served (by omega))
  · refine fun es hes => h.before rfl rfl (by simp)
      (Q := fun k => k.join c ≠ 0 ∧ ∀ u, .joinCalled u c ∈ k.log → u = p) ?_ hcompleted
      ⟨hjoin, honly⟩ hes
    rintro k lab k' h hs hmem ⟨hjoin, honly⟩
    obtain ⟨jp, fp, hh⟩ := h.handshake hne (hold k lab k' hs honly)
    have hf := hh.finishCompleted hmem
    rw [hh.joinable h.tidy h.inner hs (by omega)] at hjoin
    exact ⟨hjoin, hold k lab k' hs honly⟩
  · intro hd
    exact hcompleted k h ⟨hjoin, honly⟩ (h.buried c (.inl hd))

/-- The main thread joins the thread it has forked. -/
def joining : Tid → ℕ → Option (Call ℕ)
  | 0, 0 => some (.fork 1 1 0)
  | 0, 1 => some (.join 1)
  | 0, 2 => some .yield
  | 1, 0 => some .finish
  | _, _ => none

/-- The thread that an event of `Join` on the thread `1` is about. -/
def joinerOf : Event → Option Tid
  | .joinCalled u 1 => some u
  | _ => none

theorem join_handshake_joining :
    ∃ k, Runs (scripted joining) 0 () (fun _ => 0) k ∧ k.join 1 ≠ 0 ∧
      (∀ u, .joinCalled u 1 ∈ k.log → u = 0) ∧
        ∃ es, k.log = .finishCompleted 1 :: es ∧ .joinCalled 0 1 ∈ es := by
  have hpass : passes (step (scripted joining)) (init 0 () fun _ => 0)
      (turns [((), 3), ((), 15), ((), 27), ((), 13)])
      (fun k => k.log.head? = some (.finishCompleted 1) ∧ k.join 1 ≠ 0 ∧
        k.log.all fun e => (joinerOf e).all (· == 0)) = true := by
    decide +kernel
  obtain ⟨k, hk, hlog⟩ := exists_of_passes _ hpass
  rw [decide_eq_true_eq, List.head?_eq_some_iff] at hlog
  obtain ⟨⟨es, hes⟩, hjoin, hall⟩ := hlog
  have honly : ∀ u, .joinCalled u 1 ∈ k.log → u = 0 := by
    intro u hu
    simpa [joinerOf] using List.all_eq_true.1 hall _ hu
  have hrun := join_handshake (scripted joining) 0 () (fun _ => 0) k hk 0 1 (by decide) hjoin honly
  exact ⟨k, hk, hjoin, honly, es, hes, hrun.2.1 es (hes ▸ List.suffix_refl _)⟩

end Kernel

end Nachos
