import Nachos.Userprog.PipeEnds
import Mathlib.Data.List.Chain
import Mathlib.Data.List.Nodup

/-!
# Pipelines

A pipeline is started by Execs with the bit for an output pipe, with both bits and with the bit for
an input pipe, in this order. The pipe between two stages is the one that `freePipe` points to
after the Exec of the first of them. Execs without a bit for a pipe may stand anywhere, and the
threads may go on meanwhile, but no thread with a pipe exits.
-/

namespace Nachos

open Lib

namespace PipeThreads

/-! ## The Execs of pipelines -/

/-- The Execs `es`, the last one first, are those of the pipelines `done` and of the first stages
`cur` of one more. A stage is named by the thread of its process. -/
inductive Pipelines : List (ℕ × BitVec 32) → List (List ℕ) → List ℕ → Prop
  | nil : Pipelines [] [] []
  | plain (t : ℕ) (w : BitVec 32) (hw : w &&& 6#32 = 0#32) {es : List (ℕ × BitVec 32)}
      {done : List (List ℕ)} {cur : List ℕ} (h : Pipelines es done cur) :
      Pipelines ((t, w) :: es) done cur
  | first (t : ℕ) (w : BitVec 32) (hw : w &&& 6#32 = 2#32) {es : List (ℕ × BitVec 32)}
      {done : List (List ℕ)} (h : Pipelines es done []) : Pipelines ((t, w) :: es) done [t]
  | next (t : ℕ) (w : BitVec 32) (hw : w &&& 6#32 = 6#32) {es : List (ℕ × BitVec 32)}
      {done : List (List ℕ)} {cur : List ℕ} (hcur : cur ≠ []) (h : Pipelines es done cur) :
      Pipelines ((t, w) :: es) done (cur ++ [t])
  | last (t : ℕ) (w : BitVec 32) (hw : w &&& 6#32 = 4#32) {es : List (ℕ × BitVec 32)}
      {done : List (List ℕ)} {cur : List ℕ} (hcur : cur ≠ []) (h : Pipelines es done cur) :
      Pipelines ((t, w) :: es) (done ++ [cur ++ [t]]) []

/-- A thread that exits has no pipe. -/
def KeepsPipes (s : State) (a : Act) : Prop :=
  ∀ t, a = .exit t → s.phase t = .running → (s.pipes.members t).pipeValue &&& 6#32 = 0#32

end PipeThreads

namespace Pipes

/-! ## What Exec does -/

/-- The output pipe of `t` is the input pipe of `u`, and both of its ends are open. -/
def Linked (s : Pipes) (t u : ℕ) : Prop :=
  ∃ q, (s.members t).pipe .output = some q ∧ (s.members u).pipe .input = some q ∧ s.Live q ∧
    (s.flags q).isOpen .input = 1 ∧ (s.flags q).isOpen .output = 1

/-- Only the thread `c` has got other members, the pipes are still there, and no end is closed. -/
structure Grows (c : ℕ) (s s' : Pipes) : Prop where
  members : ∀ t, t ≠ c → s'.members t = s.members t
  numPipes : s.numPipes ≤ s'.numPipes
  live : ∀ q, s.Live q → s'.Live q
  isOpen : ∀ q e, q < s.numPipes → (s.flags q).isOpen e = 1 → (s'.flags q).isOpen e = 1

variable {s s' s'' : Pipes} {c t u q : ℕ} {e : PipeEnd} {w : BitVec 32}

theorem Grows.refl (c : ℕ) (s : Pipes) : Grows c s s :=
  ⟨fun _ _ => rfl, le_rfl, fun _ => id, fun _ _ _ => id⟩

theorem Grows.trans (h : Grows c s s') (h' : Grows c s' s'') : Grows c s s'' where
  members t ht := (h'.members t ht).trans (h.members t ht)
  numPipes := h.numPipes.trans h'.numPipes
  live q hq := h'.live q (h.live q hq)
  isOpen q e hq hopen := h'.isOpen q e (hq.trans_le h.numPipes) (h.isOpen q e hq hopen)

theorem Grows.linked (h : Grows c s s') (htu : s.Linked t u) (ht : t ≠ c) (hu : u ≠ c) :
    s'.Linked t u := by
  obtain ⟨q, hout, hin, hlive, hopen, hopen'⟩ := htu
  refine ⟨q, ?_, ?_, h.live q hlive, h.isOpen q _ hlive.1 hopen, h.isOpen q _ hlive.1 hopen'⟩
  · rw [h.members t ht, hout]
  · rw [h.members u hu, hin]

theorem grows_setPipeValue (s : Pipes) (c : ℕ) (value : BitVec 32) :
    Grows c s (s.setPipeValue c value) where
  members := (members_setPipeValue s c value).2
  numPipes := le_rfl
  live _ := id
  isOpen _ _ _ := id

theorem grows_newFreePipe (s : Pipes) (c : ℕ) : Grows c s s.newFreePipe := by
  have hflags : ∀ q, q < s.numPipes → s.newFreePipe.flags q = s.flags q := by
    intro q hq
    exact Function.update_of_ne hq.ne ..
  refine ⟨fun _ _ => rfl, Nat.le_succ _, ?_, ?_⟩
  · intro q hq
    exact ⟨Nat.lt_succ_of_lt hq.1, (hflags q hq.1).symm ▸ hq.2⟩
  · intro q e hq hopen
    rw [hflags q hq, hopen]

theorem grows_withEnd (s : Pipes) (c : ℕ) (e : PipeEnd) (q : ℕ) : Grows c s (s.withEnd c e q) where
  members := (members_withEnd s c e q).2
  numPipes := le_rfl
  live _ := live_withEnd
  isOpen := by
    intro r d _ hopen
    show (Function.update s.flags q _ r).isOpen d = 1
    by_cases hrq : r = q
    · subst hrq
      rw [Function.update_self]
      by_cases hde : d = e
      · subst hde
        exact Function.update_self ..
      · exact (Function.update_of_ne hde ..).trans hopen
    · rwa [Function.update_of_ne hrq]

theorem grows_dropFree (s : Pipes) (c : ℕ) : Grows c s { s with freePipe := none } :=
  ⟨fun _ _ => rfl, le_rfl, fun _ => id, fun _ _ _ => id⟩

theorem grows_giveEnd (h : s.giveEnd c e = .ok s') : Grows c s s' := by
  obtain ⟨q, -, -, rfl⟩ := of_giveEnd h
  exact grows_withEnd s c e q

theorem grows_connect (h : s.connect c e = .ok s') : Grows c s s' := by
  unfold connect at h
  split at h
  · exact (grows_newFreePipe s c).trans (grows_giveEnd h)
  · split at h
    · cases h
    · rename_i hgive
      cases h
      exact (grows_giveEnd hgive).trans (grows_dropFree _ c)

theorem grows_connectBoth (h : s.connectBoth c = .ok s') : Grows c s s' := by
  unfold connectBoth at h
  split at h
  · cases h
  · rename_i hgive
    exact ((grows_giveEnd hgive).trans (grows_newFreePipe _ c)).trans (grows_giveEnd h)

theorem grows_setUp (h : s.setUp c w = .ok s') : Grows c s s' := by
  have hvalue := grows_setPipeValue s c (pipeValueOf w)
  rw [setUp_eq] at h
  split at h
  · exact hvalue.trans (grows_connectBoth h)
  · split at h
    · exact hvalue.trans (grows_connect h)
    · split at h
      · exact hvalue.trans (grows_connect h)
      · cases h
        exact hvalue

/-- The new pipe, with its output end given to `c`. -/
theorem newOutput_spec (s : Pipes) (c : ℕ) :
    let s' := s.newFreePipe.withEnd c .output s.numPipes
    s'.freePipe = some s.numPipes ∧ (s'.members c).pipe .output = some s.numPipes ∧
      s'.Live s.numPipes ∧ (s'.flags s.numPipes).isOpen .output = 1 :=
  ⟨rfl, pipe_withEnd_self .., live_withEnd (live_newFreePipe s), isOpen_withEnd_self ..⟩

theorem bits_of_six (w : BitVec 32) :
    (w &&& 6#32 = 0#32 → w &&& 4#32 ≠ 4#32 ∧ w &&& 2#32 ≠ 2#32) ∧
      (w &&& 6#32 = 2#32 → w &&& 4#32 ≠ 4#32 ∧ w &&& 2#32 = 2#32) ∧
        (w &&& 6#32 = 4#32 → w &&& 4#32 = 4#32 ∧ w &&& 2#32 ≠ 2#32) := by
  rw [and_six, and_four, and_two]
  cases w.getLsbD 2 <;> cases w.getLsbD 1 <;> decide

/-- The Exec of the first stage. -/
theorem setUp_first (hw : w &&& 6#32 = 2#32) (hfree : s.freePipe = none) :
    s.setUp c w =
      .ok ((s.setPipeValue c (pipeValueOf w)).newFreePipe.withEnd c .output s.numPipes) := by
  obtain ⟨hfour, htwo⟩ := (bits_of_six w).2.1 hw
  have hsix : ¬ w &&& 6#32 = 6#32 := fun hsix => hfour ((and_six_eq_six w).1 hsix).1
  rw [setUp_eq, if_neg hsix, if_neg hfour, if_pos htwo, connect,
    show (s.setPipeValue c (pipeValueOf w)).freePipe = none from hfree]
  exact giveEnd_eq rfl (live_newFreePipe _)

/-- The Exec of a stage in the middle. -/
theorem setUp_next (hw : w &&& 6#32 = 6#32) (hfree : s.freePipe = some q) (hlive : s.Live q) :
    s.setUp c w =
      .ok (((s.setPipeValue c (pipeValueOf w)).withEnd c .input q).newFreePipe.withEnd c .output
        s.numPipes) := by
  have hgive := giveEnd_eq (s := s.setPipeValue c (pipeValueOf w)) (c := c) (e := .input)
    hfree hlive
  rw [setUp_eq, if_pos hw, connectBoth, hgive]
  exact giveEnd_eq rfl (live_newFreePipe _)

/-- The Exec of the last stage. -/
theorem setUp_last (hw : w &&& 6#32 = 4#32) (hfree : s.freePipe = some q) (hlive : s.Live q) :
    s.setUp c w =
      .ok { (s.setPipeValue c (pipeValueOf w)).withEnd c .input q with freePipe := none } := by
  obtain ⟨hfour, htwo⟩ := (bits_of_six w).2.2 hw
  have hsix : ¬ w &&& 6#32 = 6#32 := fun hsix => htwo ((and_six_eq_six w).1 hsix).2
  have hgive := giveEnd_eq (s := s.setPipeValue c (pipeValueOf w)) (c := c) (e := .input)
    hfree hlive
  rw [setUp_eq, if_neg hsix, if_pos hfour, connect,
    show (s.setPipeValue c (pipeValueOf w)).freePipe = some q from hfree]
  simp only [hgive]

/-! ## The pipes of pipelines -/

/-- The stages with an output pipe. -/
def writers (done : List (List ℕ)) (cur : List ℕ) : List ℕ := done.flatMap List.dropLast ++ cur

/-- The first stage has no input pipe: Exec leaves the member as the constructor of `Thread` has
left it, and the process does not use it. -/
structure Lacks (s₀ s : Pipes) (e : PipeEnd) (t : ℕ) : Prop where
  pipe : (s.members t).pipe e = (s₀.members t).pipe e
  bit : ¬ (s.members t).HasEnd e

/-- The stages of the pipelines `done`, and those of the pipeline that is being made, are joined one
to the next, by different pipes. -/
structure Joined (s₀ s : Pipes) (done : List (List ℕ)) (cur : List ℕ) : Prop where
  chains : ∀ pl ∈ done, pl.IsChain s.Linked
  chain : cur.IsChain s.Linked
  outs : ∀ t ∈ writers done cur, ∃ q, (s.members t).pipe .output = some q ∧ q < s.numPipes
  nodup : ((writers done cur).map fun t => (s.members t).pipe .output).Nodup
  heads : ∀ pl ∈ done, ∀ t, pl.head? = some t → s₀.Lacks s .input t
  head : ∀ t, cur.head? = some t → s₀.Lacks s .input t
  lasts : ∀ pl ∈ done, ∀ t, pl.getLast? = some t → s₀.Lacks s .output t

/-- `freePipe` is the output pipe of the stage `t`. -/
structure Pending (s : Pipes) (t q : ℕ) : Prop where
  freePipe : s.freePipe = some q
  pipe : (s.members t).pipe .output = some q
  live : s.Live q
  isOpen : (s.flags q).isOpen .output = 1

/-- The pipelines are joined, and `freePipe` points to the pipe at the end of the unfinished one. -/
structure Wired (s₀ s : Pipes) (done : List (List ℕ)) (cur : List ℕ) : Prop where
  joined : Joined s₀ s done cur
  idle : cur = [] → s.freePipe = none
  pending : ∀ t, cur.getLast? = some t → ∃ q, s.Pending t q

variable {s₀ : Pipes} {done : List (List ℕ)} {cur : List ℕ}

theorem Grows.lacks (h : Grows c s s') (htc : t ≠ c) (ht : s₀.Lacks s e t) : s₀.Lacks s' e t := by
  refine ⟨?_, ?_⟩
  · rw [h.members t htc]
    exact ht.pipe
  · rw [h.members t htc]
    exact ht.bit

theorem Grows.isChain (h : Grows c s s') {pl : List ℕ} (hpl : pl.IsChain s.Linked) (hc : c ∉ pl) :
    pl.IsChain s'.Linked := by
  refine hpl.imp_of_mem_imp fun t u ht hu htu => h.linked htu ?_ ?_
  · exact ne_of_mem_of_not_mem ht hc
  · exact ne_of_mem_of_not_mem hu hc

theorem mem_writers (ht : t ∈ writers done cur) : t ∈ done.flatten ∨ t ∈ cur := by
  refine (List.mem_append.1 ht).imp_left fun hmem => ?_
  obtain ⟨pl, hpl, hlast⟩ := List.mem_flatMap.1 hmem
  exact List.mem_flatten.2 ⟨pl, hpl, List.mem_of_mem_dropLast hlast⟩

/-- The Exec of another thread leaves the pipelines as they are. -/
theorem Joined.grows (h : Joined s₀ s done cur) (hgrow : Grows c s s') (hdone : c ∉ done.flatten)
    (hcur : c ∉ cur) : Joined s₀ s' done cur := by
  have hpl : ∀ pl ∈ done, c ∉ pl := fun pl hpl hc => hdone (List.mem_flatten.2 ⟨pl, hpl, hc⟩)
  have hwriter : ∀ t ∈ writers done cur, t ≠ c := by
    rintro t ht rfl
    exact (mem_writers ht).elim hdone hcur
  refine ⟨?_, hgrow.isChain h.chain hcur, ?_, ?_, ?_, ?_, ?_⟩
  · intro pl hmem
    exact hgrow.isChain (h.chains pl hmem) (hpl pl hmem)
  · intro t ht
    obtain ⟨q, hq, hlt⟩ := h.outs t ht
    rw [hgrow.members t (hwriter t ht)]
    exact ⟨q, hq, hlt.trans_le hgrow.numPipes⟩
  · have hsame : ((writers done cur).map fun t => (s'.members t).pipe .output) =
        (writers done cur).map fun t => (s.members t).pipe .output := by
      refine List.map_congr_left fun t ht => ?_
      rw [hgrow.members t (hwriter t ht)]
    rw [hsame]
    exact h.nodup
  · intro pl hmem t ht
    exact hgrow.lacks (ne_of_mem_of_not_mem (List.mem_of_head? ht) (hpl pl hmem))
      (h.heads pl hmem t ht)
  · intro t ht
    exact hgrow.lacks (ne_of_mem_of_not_mem (List.mem_of_head? ht) hcur) (h.head t ht)
  · intro pl hmem t ht
    exact hgrow.lacks (ne_of_mem_of_not_mem (List.mem_of_getLast? ht) (hpl pl hmem))
      (h.lasts pl hmem t ht)

/-- A stage with a new output pipe comes at the end. -/
theorem Joined.push (h : Joined s₀ s done cur) (hc : (s.members c).pipe .output = some q)
    (hq : q < s.numPipes)
    (hnew : ∀ t ∈ writers done cur, (s.members t).pipe .output ≠ some q)
    (hlink : ∀ t, cur.getLast? = some t → s.Linked t c)
    (hhead : cur = [] → s₀.Lacks s .input c) : Joined s₀ s done (cur ++ [c]) := by
  have hwriters : writers done (cur ++ [c]) = writers done cur ++ [c] := (List.append_assoc ..).symm
  refine ⟨h.chains, ?_, ?_, ?_, h.heads, ?_, h.lasts⟩
  · refine List.isChain_append.2 ⟨h.chain, .singleton _, ?_⟩
    rintro t ht u ⟨⟩
    exact hlink t ht
  · intro t ht
    rw [hwriters, List.mem_append, List.mem_singleton] at ht
    rcases ht with ht | rfl
    · exact h.outs t ht
    · exact ⟨q, hc, hq⟩
  · rw [hwriters, List.map_append, List.map_singleton, List.nodup_append]
    refine ⟨h.nodup, List.nodup_singleton _, ?_⟩
    rintro p hp r hr rfl
    obtain ⟨t, ht, rfl⟩ := List.mem_map.1 hp
    exact hnew t ht ((List.mem_singleton.1 hr).trans hc)
  · intro t ht
    cases hcur : cur with
    | nil =>
        rw [hcur] at ht
        obtain rfl : c = t := by simpa using ht
        exact hhead hcur
    | cons u us =>
        refine h.head t ?_
        rw [hcur] at ht ⊢
        exact ht

/-- The last stage comes to the pipeline, which is finished. -/
theorem Joined.finish (h : Joined s₀ s done cur) (hcur : cur ≠ [])
    (hlink : ∀ t, cur.getLast? = some t → s.Linked t c) (hlast : s₀.Lacks s .output c) :
    Joined s₀ s (done ++ [cur ++ [c]]) [] := by
  have hwriters : writers (done ++ [cur ++ [c]]) [] = writers done cur := by
    simp [writers]
  refine ⟨?_, .nil, ?_, ?_, ?_, by simp, ?_⟩
  · intro pl hpl
    rcases List.mem_append.1 hpl with hpl | hpl
    · exact h.chains pl hpl
    · obtain rfl := List.mem_singleton.1 hpl
      refine List.isChain_append.2 ⟨h.chain, .singleton _, ?_⟩
      rintro t ht u ⟨⟩
      exact hlink t ht
  · rw [hwriters]
    exact h.outs
  · rw [hwriters]
    exact h.nodup
  · intro pl hpl t ht
    rcases List.mem_append.1 hpl with hpl | hpl
    · exact h.heads pl hpl t ht
    · obtain rfl := List.mem_singleton.1 hpl
      refine h.head t ?_
      rwa [List.head?_append_of_ne_nil _ hcur] at ht
  · intro pl hpl t ht
    rcases List.mem_append.1 hpl with hpl | hpl
    · exact h.lasts pl hpl t ht
    · obtain rfl := List.mem_singleton.1 hpl
      rw [List.getLast?_concat] at ht
      cases ht
      exact hlast

/-! ## One Exec -/

theorem lacks_of_value (hvalue : (s.members c).pipeValue = pipeValueOf w) (hw : w &&& e.bit ≠ e.bit)
    (hpipe : (s.members c).pipe e = (s₀.members c).pipe e) : s₀.Lacks s e c where
  pipe := hpipe
  bit := by
    rw [PipeMembers.HasEnd, hvalue, pipeValueOf_bit]
    exact hw

/-- The pipe with the number `s.numPipes` is a new one. -/
theorem Joined.new_pipe (h : Joined s₀ s done cur) (hgrow : Grows c s s') (hdone : c ∉ done.flatten)
    (hcur : c ∉ cur) : ∀ t ∈ writers done cur, (s'.members t).pipe .output ≠ some s.numPipes := by
  intro t ht heq
  obtain ⟨q, hq, hlt⟩ := h.outs t ht
  have htc : t ≠ c := by
    rintro rfl
    exact (mem_writers ht).elim hdone hcur
  rw [hgrow.members t htc, hq] at heq
  cases heq
  exact lt_irrefl _ hlt

/-- The pending pipe joins the last stage to the thread that gets its input end. -/
theorem Pending.linked (h : s.Pending t q) (hgrow : Grows c s s') (htc : t ≠ c)
    (hin : (s'.members c).pipe .input = some q) (hopen : (s'.flags q).isOpen .input = 1) :
    s'.Linked t c := by
  refine ⟨q, ?_, hin, hgrow.live q h.live, hopen, hgrow.isOpen q _ h.live.1 h.isOpen⟩
  rw [hgrow.members t htc, h.pipe]

/-- What happens to other threads leaves the pipelines as they are. -/
theorem Wired.grows (h : Wired s₀ s done cur) (hgrow : Grows c s s')
    (hfree : s'.freePipe = s.freePipe)
    (hdone : c ∉ done.flatten) (hcur : c ∉ cur) : Wired s₀ s' done cur := by
  refine ⟨h.joined.grows hgrow hdone hcur, fun hnil => hfree.trans (h.idle hnil), ?_⟩
  intro t ht
  obtain ⟨q, hq⟩ := h.pending t ht
  refine ⟨q, hfree.trans hq.freePipe, ?_, hgrow.live q hq.live,
    hgrow.isOpen q _ hq.live.1 hq.isOpen⟩
  rw [hgrow.members t (ne_of_mem_of_not_mem (List.mem_of_getLast? ht) hcur), hq.pipe]

theorem Wired.plain (h : Wired s₀ s done cur) (hw : w &&& 6#32 = 0#32)
    (hs : s.setUp c w = .ok s') (hdone : c ∉ done.flatten) (hcur : c ∉ cur) :
    Wired s₀ s' done cur := by
  rw [setUp_of_no_bit hw] at hs
  cases hs
  exact h.grows (grows_setPipeValue s c (pipeValueOf w)) rfl hdone hcur

theorem Wired.first (h : Wired s₀ s done []) (hw : w &&& 6#32 = 2#32)
    (hs : s.setUp c w = .ok s') (hdone : c ∉ done.flatten)
    (hmembers : (s.members c).pipe = (s₀.members c).pipe) : Wired s₀ s' done [c] := by
  rw [setUp_first hw (h.idle rfl)] at hs
  cases hs
  obtain ⟨hfree, hout, hlive, hopen⟩ := newOutput_spec (s.setPipeValue c (pipeValueOf w)) c
  have hgrow := ((grows_setPipeValue s c (pipeValueOf w)).trans (grows_newFreePipe _ c)).trans
    (grows_withEnd _ c .output s.numPipes)
  have hvalue := (members_withEnd (s.setPipeValue c (pipeValueOf w)).newFreePipe c .output
    s.numPipes).1.trans (members_setPipeValue s c (pipeValueOf w)).1
  refine ⟨(h.joined.grows hgrow hdone List.not_mem_nil).push hout hlive.1
    (h.joined.new_pipe hgrow hdone List.not_mem_nil) (by simp) ?_, by simp, ?_⟩
  · intro _
    refine lacks_of_value hvalue ((bits_of_six w).2.1 hw).1 ?_
    rw [pipe_withEnd_of_ne (by simp), ← hmembers]
    simp [newFreePipe, setPipeValue]
  · rintro t ⟨⟩
    exact ⟨s.numPipes, hfree, hout, hlive, hopen⟩

theorem Wired.next (h : Wired s₀ s done cur) (hcur : cur ≠ []) (hw : w &&& 6#32 = 6#32)
    (hs : s.setUp c w = .ok s') (hdone : c ∉ done.flatten) (hc : c ∉ cur) :
    Wired s₀ s' done (cur ++ [c]) := by
  obtain ⟨t, ht⟩ := Option.ne_none_iff_exists'.1 (mt List.getLast?_eq_none_iff.1 hcur)
  obtain ⟨q, hq⟩ := h.pending t ht
  rw [setUp_next hw hq.freePipe hq.live] at hs
  cases hs
  have htc : t ≠ c := ne_of_mem_of_not_mem (List.mem_of_getLast? ht) hc
  obtain ⟨hfree, hout, hlive, hopen⟩ :=
    newOutput_spec ((s.setPipeValue c (pipeValueOf w)).withEnd c .input q) c
  have hinput := (grows_setPipeValue s c (pipeValueOf w)).trans (grows_withEnd _ c .input q)
  have hrest := (grows_newFreePipe ((s.setPipeValue c (pipeValueOf w)).withEnd c .input q) c).trans
    (grows_withEnd _ c .output s.numPipes)
  have hgrow := hinput.trans hrest
  refine ⟨(h.joined.grows hgrow hdone hc).push hout hlive.1 (h.joined.new_pipe hgrow hdone hc) ?_
    fun hnil => absurd hnil hcur, by simp, ?_⟩
  · intro u hu
    obtain rfl : t = u := Option.some.inj (ht.symm.trans hu)
    refine hq.linked hgrow htc ?_ ?_
    · rw [pipe_withEnd_of_ne (by simp)]
      exact pipe_withEnd_self ..
    · exact hrest.isOpen q _ hq.live.1 (isOpen_withEnd_self ..)
  · intro u hu
    rw [List.getLast?_concat] at hu
    cases hu
    exact ⟨s.numPipes, hfree, hout, hlive, hopen⟩

theorem Wired.last (h : Wired s₀ s done cur) (hcur : cur ≠ []) (hw : w &&& 6#32 = 4#32)
    (hs : s.setUp c w = .ok s') (hdone : c ∉ done.flatten) (hc : c ∉ cur)
    (hmembers : (s.members c).pipe = (s₀.members c).pipe) :
    Wired s₀ s' (done ++ [cur ++ [c]]) [] := by
  obtain ⟨t, ht⟩ := Option.ne_none_iff_exists'.1 (mt List.getLast?_eq_none_iff.1 hcur)
  obtain ⟨q, hq⟩ := h.pending t ht
  rw [setUp_last hw hq.freePipe hq.live] at hs
  cases hs
  have htc : t ≠ c := ne_of_mem_of_not_mem (List.mem_of_getLast? ht) hc
  have hgrow := ((grows_setPipeValue s c (pipeValueOf w)).trans (grows_withEnd _ c .input q)).trans
    (grows_dropFree _ c)
  have hvalue := (members_withEnd (s.setPipeValue c (pipeValueOf w)) c .input q).1.trans
    (members_setPipeValue s c (pipeValueOf w)).1
  refine ⟨(h.joined.grows hgrow hdone hc).finish hcur ?_ ?_, fun _ => rfl, by simp⟩
  · intro u hu
    obtain rfl : t = u := Option.some.inj (ht.symm.trans hu)
    exact hq.linked hgrow htc (pipe_withEnd_self ..) (isOpen_withEnd_self (c := c) ..)
  · refine lacks_of_value hvalue ((bits_of_six w).2.2 hw).2 ?_
    show (((s.setPipeValue c (pipeValueOf w)).withEnd c .input q).members c).pipe .output = _
    rw [pipe_withEnd_of_ne (by simp), ← hmembers]
    simp [setPipeValue]

/-- Nothing has been made yet. -/
theorem wired_nil (hfree : s.freePipe = none) : Wired s s [] [] where
  joined := ⟨by simp, .nil, by simp [writers], by simp [writers], by simp, by simp, by simp⟩
  idle _ := hfree
  pending := by simp

end Pipes

/-! ## Runs -/

namespace PipeThreads

open Pipes

variable {s₀ s s' : State} {es : List (ℕ × BitVec 32)} {done : List (List ℕ)} {cur : List ℕ}
  {c t : ℕ} {w : BitVec 32}

/-- The pipelines of the Execs since `s₀` are wired, and their stages are threads that exist. -/
structure Laid (s₀ s : State) (es : List (ℕ × BitVec 32)) : Prop where
  execs : s.execs = es ++ s₀.execs
  absent : ∀ t, s.phase t = .absent → (s.pipes.members t).pipe = (s₀.pipes.members t).pipe
  wired : ∀ done cur, Pipelines es done cur → s₀.pipes.Wired s.pipes done cur
  exist : ∀ done cur, Pipelines es done cur → ∀ t ∈ done.flatten ++ cur, s.phase t ≠ .absent

/-- The threads go on without an Exec. -/
theorem Laid.goes (h : Laid s₀ s es) (hexecs : s'.execs = s.execs)
    (hgrow : Grows c s.pipes s'.pipes)
    (hfree : s'.pipes.freePipe = s.pipes.freePipe) (hc : s.phase c = .absent)
    (hc' : s'.phase c ≠ .absent) (hphase : ∀ t, s'.phase t = .absent → s.phase t = .absent) :
    Laid s₀ s' es := by
  refine ⟨hexecs.trans h.execs, ?_, ?_, ?_⟩
  · intro t ht
    rw [hgrow.members t fun htc => hc' (htc ▸ ht)]
    exact h.absent t (hphase t ht)
  · intro done cur hes
    have hnot : c ∉ done.flatten ++ cur := fun hmem => h.exist done cur hes c hmem hc
    rw [List.mem_append, not_or] at hnot
    exact (h.wired done cur hes).grows hgrow hfree hnot.1 hnot.2
  · intro done cur hes t ht habsent
    exact h.exist done cur hes t ht (hphase t habsent)

/-- The pipes stay as they are. -/
theorem Laid.stays (h : Laid s₀ s es) (hexecs : s'.execs = s.execs) (hpipes : s'.pipes = s.pipes)
    (hphase : ∀ t, s'.phase t = .absent → s.phase t = .absent) : Laid s₀ s' es := by
  refine ⟨hexecs.trans h.execs, ?_, ?_, ?_⟩
  · intro t ht
    rw [hpipes]
    exact h.absent t (hphase t ht)
  · rw [hpipes]
    exact h.wired
  · intro done cur hes t ht habsent
    exact h.exist done cur hes t ht (hphase t habsent)

theorem phase_of_update {phase : ℕ → Phase} {pc : Phase} (hpc : pc ≠ .absent)
    (h : Function.update phase c pc t = .absent) : t ≠ c ∧ phase t = .absent := by
  by_cases htc : t = c
  · rw [htc, Function.update_self] at h
    exact absurd h hpc
  · rw [Function.update_of_ne htc] at h
    exact ⟨htc, h⟩

theorem Laid.exec (h : Laid s₀ s es) (hc : s.phase c = .absent) (hs : exec s c w = .ok s') :
    Laid s₀ s' ((c, w) :: es) := by
  unfold PipeThreads.exec at hs
  split at hs
  · cases hs
  · rename_i pipes hsetUp
    cases hs
    have hnot : ∀ {done cur}, Pipelines es done cur → c ∉ done.flatten ∧ c ∉ cur := by
      intro done cur hes
      rw [← not_or, ← List.mem_append]
      exact fun hmem => h.exist done cur hes c hmem hc
    refine ⟨congrArg _ h.execs, ?_, ?_, ?_⟩
    · intro t ht
      obtain ⟨htc, ht⟩ := phase_of_update (by simp) ht
      rw [← h.absent t ht]
      exact congrArg _ ((grows_setUp hsetUp).members t htc)
    · intro done cur hes
      cases hes with
      | plain t w hw hes =>
          obtain ⟨hdone, hcur⟩ := hnot hes
          exact (h.wired _ _ hes).plain hw hsetUp hdone hcur
      | first t w hw hes =>
          exact (h.wired _ _ hes).first hw hsetUp (hnot hes).1 (h.absent c hc)
      | next t w hw hcur hes =>
          obtain ⟨hdone, hc⟩ := hnot hes
          exact (h.wired _ _ hes).next hcur hw hsetUp hdone hc
      | last t w hw hcur hes =>
          obtain ⟨hdone, hcur'⟩ := hnot hes
          exact (h.wired _ _ hes).last hcur hw hsetUp hdone hcur' (h.absent c hc)
    · intro done cur hes t ht habsent
      obtain ⟨htc, habsent⟩ := phase_of_update (by simp) habsent
      cases hes with
      | plain t' w hw hes => exact h.exist _ _ hes t ht habsent
      | first t' w hw hes =>
          rcases List.mem_append.1 ht with ht | ht
          · exact h.exist _ _ hes t (List.mem_append_left _ ht) habsent
          · exact htc (List.mem_singleton.1 ht)
      | next t' w hw hcur hes =>
          simp only [List.mem_append, List.mem_singleton] at ht
          rcases ht with ht | ht | rfl
          · exact h.exist _ _ hes t (List.mem_append_left _ ht) habsent
          · exact h.exist _ _ hes t (List.mem_append_right _ ht) habsent
          · exact htc rfl
      | last t' w hw hcur hes =>
          simp only [List.flatten_append, List.flatten_singleton, List.append_nil, List.mem_append,
            List.mem_singleton] at ht
          rcases ht with ht | ht | rfl
          · exact h.exist _ _ hes t (List.mem_append_left _ ht) habsent
          · exact h.exist _ _ hes t (List.mem_append_right _ ht) habsent
          · exact htc rfl


/-- A thread that has no pipe exits. -/
theorem sysCallExit_of_no_bit {p : Pipes} (h : (p.members t).pipeValue &&& 6#32 = 0#32) :
    p.sysCallExit t = .ok p := by
  have hin : ∀ e, ¬ (p.members t).HasEnd e := not_hasEnd h
  rw [sysCallExit, closeEnd, if_neg (hin .input)]
  simp only
  rw [closeEnd, if_neg (hin .output)]

theorem Laid.step {a : Act} (h : Laid s₀ s es) (hkeeps : KeepsPipes s a) (hs : step s a = .ok s') :
    ∃ es, Laid s₀ s' es := by
  cases a with
  | exec t child willJoin =>
      simp only [PipeThreads.step] at hs
      split at hs
      · rename_i hrun
        exact ⟨_, h.exec hrun.2 hs⟩
      · cases hs
        exact ⟨es, h⟩
  | start t =>
      simp only [PipeThreads.step] at hs
      split at hs
      · cases hs
        exact ⟨es, h.stays rfl rfl fun u hu => (phase_of_update (by simp) hu).2⟩
      · cases hs
        exact ⟨es, h⟩
  | fork t child members =>
      simp only [PipeThreads.step] at hs
      split at hs
      · rename_i hrun
        cases hs
        refine ⟨es, h.goes (c := child) rfl ?_ rfl hrun.2 (by simp) ?_⟩
        · exact ⟨fun u hu => Function.update_of_ne hu .., le_rfl, fun _ => id, fun _ _ _ => id⟩
        · exact fun u hu => (phase_of_update (by simp) hu).2
      · cases hs
        exact ⟨es, h⟩
  | read t =>
      simp only [PipeThreads.step, usePipe] at hs
      split at hs
      · split at hs
        · cases hs
        · cases hs
          exact ⟨es, h.stays rfl rfl fun _ => id⟩
      · cases hs
        exact ⟨es, h⟩
  | write t =>
      simp only [PipeThreads.step, usePipe] at hs
      split at hs
      · split at hs
        · cases hs
        · cases hs
          exact ⟨es, h.stays rfl rfl fun _ => id⟩
      · cases hs
        exact ⟨es, h⟩
  | exit t =>
      simp only [PipeThreads.step, PipeThreads.exit] at hs
      split at hs
      · rename_i hrun
        rw [sysCallExit_of_no_bit (hkeeps t rfl hrun)] at hs
        cases hs
        exact ⟨es, h.stays rfl rfl fun u hu => (phase_of_update (by simp) hu).2⟩
      · cases hs
        exact ⟨es, h⟩

theorem laid_nil (hfree : s.pipes.freePipe = none) : Laid s s [] where
  execs := rfl
  absent _ _ := rfl
  wired := by
    rintro done cur ⟨⟩
    exact wired_nil hfree
  exist := by
    rintro done cur ⟨⟩
    simp

/-- From a state without a pending pipe, and while no thread with a pipe exits: when the Execs have
been those of whole pipelines, no pipe is pending, the output pipe of every stage is the input pipe
of the next one and has both ends open, different stages have different output pipes, the first
stages have no input pipe and the last ones no output pipe. -/
theorem pipelines_joined (s₀ s : State) (acts : List Act) (hfree : s₀.pipes.freePipe = none)
    (h : runFrom step s₀ acts = .ok s) (hkeeps : Meets step KeepsPipes s₀ acts)
    (es : List (ℕ × BitVec 32)) (done : List (List ℕ)) (hexecs : s.execs = es ++ s₀.execs)
    (hes : Pipelines es done []) :
    s.pipes.freePipe = none ∧ s₀.pipes.Joined s.pipes done [] := by
  obtain ⟨es', hlaid⟩ : ∃ es, Laid s₀ s es := by
    refine invariant_of_meets (I := fun s => ∃ es, Laid s₀ s es) ?_ ⟨[], laid_nil hfree⟩ hkeeps h
    rintro s a s' ⟨es, hi⟩ hp hs
    exact hi.step hp hs
  obtain rfl : es' = es := List.append_cancel_right (hlaid.execs.symm.trans hexecs)
  have hwired := hlaid.wired done [] hes
  exact ⟨hwired.idle rfl, hwired.joined⟩

/-- Two pipelines, one of three stages and one of two, with other Execs and threads between them. -/
def twoPipelines : List Act :=
  [.exec 0 1 2#32, .start 1, .exec 0 2 1#32, .exec 0 3 6#32, .write 1, .start 2, .exec 2 4 5#32,
    .exit 2, .exec 0 5 3#32, .start 3, .read 3, .exec 0 6 4#32]

theorem pipelines_joined_two :
    ∃ s, runFrom step (init quiet) twoPipelines = .ok s ∧ s.pipes.numPipes = 3 ∧
      s.pipes.freePipe = none ∧ (init quiet).pipes.Joined s.pipes [[1, 3, 4], [5, 6]] [] := by
  have hpass : passesMeeting step
      (fun s a => match a with
        | .exit t => (s.pipes.members t).pipeValue &&& 6#32 = 0#32
        | _ => true)
      (fun s => s.pipes.numPipes = 3 ∧
        s.execs = [(6, 4#32), (5, 3#32), (4, 5#32), (3, 6#32), (2, 1#32), (1, 2#32)])
      (init quiet) twoPipelines = true := by
    decide +kernel
  obtain ⟨hmeets, s, hs, hend⟩ := of_passesMeeting hpass
  obtain ⟨hnum, hexecs⟩ := of_decide_eq_true hend
  refine ⟨s, hs, hnum, pipelines_joined (init quiet) s twoPipelines rfl hs (hmeets.imp ?_) _ _
    (hexecs.trans (List.append_nil _).symm) ?_⟩
  · rintro s a ha t rfl hrun
    simpa using ha
  · exact .last 6 4#32 rfl (by simp) (.first 5 3#32 rfl (.last 4 5#32 rfl (by simp)
      (.next 3 6#32 rfl (by simp) (.plain 2 1#32 rfl (.first 1 2#32 rfl .nil)))))

end PipeThreads

end Nachos
