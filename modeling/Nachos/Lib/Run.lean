import Mathlib.Data.List.Induction

/-!
# Runs of a labelled machine

A machine is a partial step function `step s a`: the label `a` says which of
the possible moves is made, and the error branch says that the move is not
possible in `s` (or stops the machine). `runFrom step s as` makes the moves of
`as` one after the other, and a state is reachable when some list of labels
leads to it. The run function computes, so a concrete run is checked by
evaluation, and the invariant rule `Reachable.invariant` is all that a proof
over every run needs.
-/

namespace Lib

/-- The state after the moves `as`, made one after the other from `s`. -/
def runFrom {S L E : Type*} (step : S → L → Except E S) : S → List L → Except E S
  | s, [] => .ok s
  | s, a :: as =>
      match step s a with
      | .ok s' => runFrom step s' as
      | .error e => .error e

/-- A state that some run from `s₀` ends in. -/
def Reachable {S L E : Type*} (step : S → L → Except E S) (s₀ s : S) : Prop :=
  ∃ as, runFrom step s₀ as = .ok s

@[simp] theorem runFrom_nil {S L E : Type*} (step : S → L → Except E S) (s : S) :
    runFrom step s [] = .ok s := rfl

theorem runFrom_cons_ok {S L E : Type*} (step : S → L → Except E S)
    (s s' : S) (a : L) (as : List L) :
    runFrom step s (a :: as) = .ok s' ↔
      ∃ m, step s a = .ok m ∧ runFrom step m as = .ok s' := by
  cases h : step s a with
  | error e => simp [runFrom, h]
  | ok m => simp [runFrom, h]

/-- A run splits an appended list of labels, moving the starting state by the
first part. -/
theorem runFrom_append_ok {S L E : Type*} (step : S → L → Except E S)
    (s s' : S) (as bs : List L) :
    runFrom step s (as ++ bs) = .ok s' ↔
      ∃ m, runFrom step s as = .ok m ∧ runFrom step m bs = .ok s' := by
  induction as generalizing s with
  | nil => simp
  | cons a as ih =>
      rw [List.cons_append, runFrom_cons_ok]
      constructor
      · rintro ⟨m, hm, h⟩
        obtain ⟨n, hn, h'⟩ := (ih m).1 h
        exact ⟨n, (runFrom_cons_ok step s n a as).2 ⟨m, hm, hn⟩, h'⟩
      · rintro ⟨n, hn, h'⟩
        obtain ⟨m, hm, hn⟩ := (runFrom_cons_ok step s n a as).1 hn
        exact ⟨m, hm, (ih m).2 ⟨n, hn, h'⟩⟩

/-- Two machines that make the moves of `as` alike make the same run. -/
theorem runFrom_congr {S L E : Type*} {step step' : S → L → Except E S} {as : List L}
    (h : ∀ a ∈ as, ∀ s, step s a = step' s a) (s : S) : runFrom step s as = runFrom step' s as := by
  induction as generalizing s with
  | nil => rfl
  | cons a as ih =>
      simp only [runFrom, h a (by simp) s]
      cases step' s a with
      | error e => rfl
      | ok m => exact ih (fun b hb => h b (by simp [hb])) m

theorem Reachable.refl {S L E : Type*} (step : S → L → Except E S) (s : S) :
    Reachable step s s := ⟨[], rfl⟩

theorem Reachable.tail {S L E : Type*} {step : S → L → Except E S} {s₀ s s' : S} {a : L}
    (h : Reachable step s₀ s) (hs : step s a = .ok s') : Reachable step s₀ s' := by
  obtain ⟨as, has⟩ := h
  refine ⟨as ++ [a], (runFrom_append_ok step s₀ s' as [a]).2 ⟨s, has, ?_⟩⟩
  exact (runFrom_cons_ok step s s' a []).2 ⟨s', hs, rfl⟩

theorem Reachable.trans {S L E : Type*} {step : S → L → Except E S} {s₀ s s' : S}
    (h : Reachable step s₀ s) (h' : Reachable step s s') : Reachable step s₀ s' := by
  obtain ⟨as, has⟩ := h
  obtain ⟨bs, hbs⟩ := h'
  exact ⟨as ++ bs, (runFrom_append_ok step s₀ s' as bs).2 ⟨s, has, hbs⟩⟩

/-- The invariant rule: what holds at the start and is kept by every move from a
reachable state holds in every reachable state. -/
theorem Reachable.invariant {S L E : Type*} {step : S → L → Except E S} {s₀ : S}
    {I : S → Prop} (h₀ : I s₀)
    (hstep : ∀ s a s', Reachable step s₀ s → I s → step s a = .ok s' → I s')
    {s : S} (h : Reachable step s₀ s) : I s := by
  obtain ⟨as, has⟩ := h
  induction as using List.reverseRecOn generalizing s with
  | nil =>
      cases has
      exact h₀
  | append_singleton as a ih =>
      obtain ⟨m, hm, h'⟩ := (runFrom_append_ok step s₀ s as [a]).1 has
      obtain ⟨n, hn, hn'⟩ := (runFrom_cons_ok step m s a []).1 h'
      cases hn'
      exact hstep m a s ⟨as, hm⟩ (ih hm) hn

/-- Every move of the run meets the condition `P` in the state it is made in. -/
def Meets {S L E : Type*} (step : S → L → Except E S) (P : S → L → Prop) : S → List L → Prop
  | _, [] => True
  | s, a :: as => P s a ∧ ∀ s', step s a = .ok s' → Meets step P s' as

theorem Meets.cons {S L E : Type*} {step : S → L → Except E S} {P : S → L → Prop} {s s' : S}
    {a : L} {as : List L} (hp : P s a) (hs : step s a = .ok s') (h : Meets step P s' as) :
    Meets step P s (a :: as) := by
  refine ⟨hp, ?_⟩
  intro t ht
  cases hs.symm.trans ht
  exact h

/-- A condition on the moves alone. -/
theorem Meets.of_forall {S L E : Type*} {step : S → L → Except E S} {P : S → L → Prop} {s : S}
    {as : List L} (h : ∀ a ∈ as, ∀ s, P s a) : Meets step P s as := by
  induction as generalizing s with
  | nil => trivial
  | cons a as ih =>
      refine ⟨h a (by simp) s, ?_⟩
      intro s' _
      exact ih fun b hb => h b (by simp [hb])

theorem Meets.imp {S L E : Type*} {step : S → L → Except E S} {P Q : S → L → Prop} {s : S}
    {as : List L} (hpq : ∀ s a, P s a → Q s a) (h : Meets step P s as) : Meets step Q s as := by
  induction as generalizing s with
  | nil => trivial
  | cons a as ih => exact ⟨hpq s a h.1, fun s' hs' => ih (h.2 s' hs')⟩

theorem Meets.and {S L E : Type*} {step : S → L → Except E S} {P Q : S → L → Prop} {s : S}
    {as : List L} (h : Meets step P s as) (h' : Meets step Q s as) :
    Meets step (fun s a => P s a ∧ Q s a) s as := by
  induction as generalizing s with
  | nil => trivial
  | cons a as ih => exact ⟨⟨h.1, h'.1⟩, fun s' hs' => ih (h.2 s' hs') (h'.2 s' hs')⟩

/-- The invariant rule for the runs whose moves meet a condition: the moves can all
be made, and the invariant holds at the end. -/
theorem exists_of_meets {S L E : Type*} {step : S → L → Except E S} {P : S → L → Prop}
    {I : S → Prop} (hstep : ∀ s a, I s → P s a → ∃ s', step s a = .ok s' ∧ I s')
    {s₀ : S} (h₀ : I s₀) {as : List L} (h : Meets step P s₀ as) :
    ∃ s, runFrom step s₀ as = .ok s ∧ I s := by
  induction as generalizing s₀ with
  | nil => exact ⟨s₀, rfl, h₀⟩
  | cons a as ih =>
      obtain ⟨m, hm, hi⟩ := hstep s₀ a h₀ h.1
      obtain ⟨s, hs, hs'⟩ := ih hi (h.2 m hm)
      exact ⟨s, (runFrom_cons_ok step s₀ s a as).2 ⟨m, hm, hs⟩, hs'⟩

/-- The same, when the moves are known to be possible. -/
theorem invariant_of_meets {S L E : Type*} {step : S → L → Except E S} {P : S → L → Prop}
    {I : S → Prop} (hstep : ∀ s a s', I s → P s a → step s a = .ok s' → I s')
    {s₀ s : S} (h₀ : I s₀) {as : List L} (h : Meets step P s₀ as)
    (hs : runFrom step s₀ as = .ok s) : I s := by
  induction as generalizing s₀ with
  | nil =>
      cases hs
      exact h₀
  | cons a as ih =>
      obtain ⟨m, hm, hs⟩ := (runFrom_cons_ok step s₀ s a as).1 hs
      exact ih (hstep s₀ a m h₀ h.1 hm) (h.2 m hm) hs

/-- Two conditions that agree wherever the invariant and `P` hold are met by the same runs
with `P`. -/
theorem Meets.congr {S L E : Type*} {step : S → L → Except E S} {P Q R : S → L → Prop}
    {I : S → Prop} (hstep : ∀ s a s', I s → P s a → step s a = .ok s' → I s')
    (hiff : ∀ s a, I s → P s a → (Q s a ↔ R s a)) {s₀ : S} (h₀ : I s₀) {as : List L}
    (h : Meets step P s₀ as) : Meets step Q s₀ as ↔ Meets step R s₀ as := by
  induction as generalizing s₀ with
  | nil => exact Iff.rfl
  | cons a as ih =>
      refine and_congr (hiff s₀ a h₀ h.1) (forall_congr' fun s' => ?_)
      refine imp_congr_right fun hs => ?_
      exact ih (hstep s₀ a s' h₀ h.1 hs) (h.2 s' hs)

theorem Meets.append {S L E : Type*} {step : S → L → Except E S} {P : S → L → Prop} {s m : S}
    {as bs : List L} (h : Meets step P s as) (hm : runFrom step s as = .ok m)
    (h' : Meets step P m bs) : Meets step P s (as ++ bs) := by
  induction as generalizing s with
  | nil =>
      cases hm
      exact h'
  | cons a as ih =>
      obtain ⟨n, hn, hm⟩ := (runFrom_cons_ok step s m a as).1 hm
      exact .cons h.1 hn (ih (h.2 n hn) hm)

/-- The condition holds of a move in the middle. -/
theorem Meets.at_move {S L E : Type*} {step : S → L → Except E S} {P : S → L → Prop} {s m : S}
    {bs cs : List L} {a : L} (h : Meets step P s (bs ++ a :: cs))
    (hm : runFrom step s bs = .ok m) : P m a := by
  induction bs generalizing s with
  | nil =>
      cases hm
      exact h.1
  | cons b bs ih =>
      obtain ⟨n, hn, hm⟩ := (runFrom_cons_ok step s m b bs).1 hm
      exact ih (h.2 n hn) hm

theorem Meets.of_moves {S L E : Type*} {step : S → L → Except E S} {P : S → L → Prop} {s : S}
    {as : List L}
    (h : ∀ bs a cs m, as = bs ++ a :: cs → runFrom step s bs = .ok m → P m a) :
    Meets step P s as := by
  induction as generalizing s with
  | nil => trivial
  | cons a as ih =>
      refine ⟨h [] a as s rfl rfl, fun s' hs' => ih fun bs b cs m has hm => ?_⟩
      refine h (a :: bs) b cs m (by rw [has, List.cons_append]) ?_
      exact (runFrom_cons_ok step s m a bs).2 ⟨s', hs', hm⟩

/-! ## Moves that are kept apart -/

/-- The moves `bs` lead to a move `a` with `P`, and no move of `cs` that follows it has `Q`. -/
def Pending {S L E : Type*} (step : S → L → Except E S) (P Q : S → L → Prop) (s : S)
    (bs : List L) (a : L) (cs : List L) (s' : S) : Prop :=
  ∃ m n, runFrom step s bs = .ok m ∧ P m a ∧ step m a = .ok n ∧
    runFrom step n cs = .ok s' ∧ Meets step (fun s a => ¬ Q s a) n cs

/-- Between any two moves with `P` there is one with `Q`. -/
def Apart {S L E : Type*} (step : S → L → Except E S) (P Q : S → L → Prop) (s : S)
    (as : List L) : Prop :=
  ∀ bs a cs a' ds s', as = bs ++ a :: (cs ++ a' :: ds) → Pending step P Q s bs a cs s' → ¬ P s' a'

section Flag

variable {S L E : Type*} {step : S → L → Except E S} {P Q : S → L → Prop} {F : S → Prop} {s₀ : S}

theorem Pending.run {bs cs : List L} {a : L} {s : S} (h : Pending step P Q s₀ bs a cs s) :
    runFrom step s₀ (bs ++ a :: cs) = .ok s := by
  obtain ⟨m, n, hm, -, hn, hcs, -⟩ := h
  exact (runFrom_append_ok step s₀ s bs (a :: cs)).2
    ⟨m, hm, (runFrom_cons_ok step m s a cs).2 ⟨n, hn, hcs⟩⟩

/-- A flag that moves with `P` raise and moves with `Q` lower is up after those runs in which
a move with `P` is pending. -/
theorem flag_iff_pending (h₀ : ¬ F s₀)
    (hset : ∀ s a s', Reachable step s₀ s → step s a = .ok s' → P s a → F s')
    (hclear : ∀ s a s', Reachable step s₀ s → step s a = .ok s' → Q s a → ¬ F s')
    (hframe : ∀ s a s', Reachable step s₀ s → step s a = .ok s' → ¬ P s a → ¬ Q s a →
      (F s' ↔ F s)) {as : List L} {s : S} (hs : runFrom step s₀ as = .ok s) :
    F s ↔ ∃ bs a cs, as = bs ++ a :: cs ∧ Pending step P Q s₀ bs a cs s := by
  constructor
  · intro hf
    induction as using List.reverseRecOn generalizing s with
    | nil =>
        cases hs
        exact absurd hf h₀
    | append_singleton as a ih =>
        obtain ⟨m, hm, h'⟩ := (runFrom_append_ok step s₀ s as [a]).1 hs
        obtain ⟨n, hn, hn'⟩ := (runFrom_cons_ok step m s a []).1 h'
        cases hn'
        have hq : ¬ Q m a := fun hq => hclear m a s ⟨as, hm⟩ hn hq hf
        by_cases hp : P m a
        · exact ⟨as, a, [], rfl, m, s, hm, hp, hn, rfl, trivial⟩
        · obtain ⟨bs, b, cs, rfl, m', n', hm', hp', hn', hcs, hmeets⟩ :=
            ih hm ((hframe m a s ⟨as, hm⟩ hn hp hq).1 hf)
          have happ := (runFrom_append_ok step n' s cs [a]).2 ⟨m, hcs, h'⟩
          exact ⟨bs, b, cs ++ [a], by simp, m', n', hm', hp', hn', happ,
            hmeets.append hcs (.cons hq hn trivial)⟩
  · rintro ⟨bs, a, cs, -, m, n, hm, hp, hn, hcs, hmeets⟩
    have hm : Reachable step s₀ m := ⟨bs, hm⟩
    refine (invariant_of_meets (I := fun s => Reachable step s₀ s ∧ F s) ?_
      ⟨hm.tail hn, hset m a n hm hn hp⟩ hmeets hcs).2
    rintro s a s' ⟨hr, hf⟩ hq hs
    refine ⟨hr.tail hs, ?_⟩
    by_cases hp : P s a
    · exact hset s a s' hr hs hp
    · exact (hframe s a s' hr hs hp hq).2 hf

/-- The flag is down at every move with `P` exactly when moves with `Q` keep these apart. -/
theorem meets_flag_down_iff_apart (h₀ : ¬ F s₀)
    (hset : ∀ s a s', Reachable step s₀ s → step s a = .ok s' → P s a → F s')
    (hclear : ∀ s a s', Reachable step s₀ s → step s a = .ok s' → Q s a → ¬ F s')
    (hframe : ∀ s a s', Reachable step s₀ s → step s a = .ok s' → ¬ P s a → ¬ Q s a →
      (F s' ↔ F s)) (as : List L) :
    Meets step (fun s a => P s a → ¬ F s) s₀ as ↔ Apart step P Q s₀ as := by
  constructor
  · rintro h bs a cs a' ds s rfl hpend hp
    have hs := hpend.run
    rw [← List.cons_append, ← List.append_assoc] at h
    exact h.at_move hs hp ((flag_iff_pending h₀ hset hclear hframe hs).2 ⟨bs, a, cs, rfl, hpend⟩)
  · intro h
    refine .of_moves fun bs a ds s has hs hp hf => ?_
    obtain ⟨bs', b, cs, rfl, hpend⟩ := (flag_iff_pending h₀ hset hclear hframe hs).1 hf
    exact h bs' b cs a ds s (by rw [has]; simp) hpend hp

end Flag

/-- The moves `as` can be made, and the state they lead to passes the test `P`. -/
def passes {S L E : Type*} (step : S → L → Except E S) (s : S) (as : List L) (P : S → Bool) :
    Bool :=
  match runFrom step s as with
  | .ok s' => P s'
  | .error _ => false

theorem runFrom_of_passes {S L E : Type*} {step : S → L → Except E S} {s : S} {P : S → Bool}
    {as : List L} (h : passes step s as P = true) :
    ∃ s', runFrom step s as = .ok s' ∧ P s' = true := by
  unfold passes at h
  split at h
  · rename_i s' hs'
    exact ⟨s', hs', h⟩
  · cases h

theorem exists_of_passes {S L E : Type*} {step : S → L → Except E S} {s : S} {P : S → Bool}
    (as : List L) (h : passes step s as P = true) : ∃ s', Reachable step s s' ∧ P s' = true := by
  obtain ⟨s', hs', hP⟩ := runFrom_of_passes h
  exact ⟨s', ⟨as, hs'⟩, hP⟩

/-- The same, with every move meeting the test `C`. -/
def passesMeeting {S L E : Type*} (step : S → L → Except E S) (C : S → L → Bool) (P : S → Bool) :
    S → List L → Bool
  | s, [] => P s
  | s, a :: as =>
      C s a &&
        match step s a with
        | .ok s' => passesMeeting step C P s' as
        | .error _ => false

theorem of_passesMeeting {S L E : Type*} {step : S → L → Except E S} {C : S → L → Bool}
    {P : S → Bool} {s : S} {as : List L} (h : passesMeeting step C P s as = true) :
    Meets step (fun s a => C s a = true) s as ∧ ∃ s', runFrom step s as = .ok s' ∧ P s' = true := by
  induction as generalizing s with
  | nil => exact ⟨trivial, s, rfl, h⟩
  | cons a as ih =>
      rw [passesMeeting, Bool.and_eq_true] at h
      obtain ⟨hc, h⟩ := h
      split at h
      · rename_i m hm
        obtain ⟨hmeets, s', hs', hp⟩ := ih h
        exact ⟨.cons hc hm hmeets, s', (runFrom_cons_ok step s s' a as).2 ⟨m, hm, hs'⟩, hp⟩
      · cases h

end Lib
