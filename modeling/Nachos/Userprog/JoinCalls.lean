import Nachos.Userprog.TableEntries

/-!
# What Join tests and what it asserts

`Join2` tests that the table names a `Thread` and that its `canJoin` does not return 0, and
then calls `Thread::Join`, which asserts four things. Two of them follow from the tests in
every run: a thread that can be joined has 1 as its member `join`, and it has been forked
when it is in the table, but for one that `Fork2` has entered and not forked yet. Nothing
keeps a thread from its own id, or from one that is being joined.
-/

namespace Nachos

open Lib

namespace Kernel

variable {ρ δ α : Type}

/-! ## The members that `Join` asserts -/

theorem isForked_sleep {k k' : Kernel ρ δ} (h : k.sleep = .ok k') : k'.isForked = k.isForked := by
  simp only [sleep, assertThen_ok, Except.ok.injEq] at h
  obtain ⟨-, rfl⟩ := h
  rfl

theorem isForked_pLoop {k k' : Kernel ρ δ} {s : ℕ} (h : k.pLoop s = .ok k') :
    k'.isForked = k.isForked := by
  unfold pLoop at h
  split at h
  · exact (isForked_sleep h).trans rfl
  · cases h
    rfl

theorem isForked_acquireLoop {k k' : Kernel ρ δ} {l : Obj} (h : k.acquireLoop l = .ok k') :
    k'.isForked = k.isForked := by
  unfold acquireLoop at h
  split at h
  · exact (isForked_sleep h).trans rfl
  · cases h
    rfl

/-- Only `Fork` sets the member. -/
theorem isForked_exec {k k' : Kernel ρ δ} {o : Call ρ} (h : k.exec o = .ok k') :
    (k'.isForked = k.isForked ∧ ∀ t join start, o ≠ .fork t join start) ∨
      ∃ join start, o = .fork k.numThreads join start ∧
        k'.isForked = Function.update k.isForked k.numThreads true := by
  cases o with
  | P s => exact .inl ⟨(isForked_pLoop h).trans rfl, by simp⟩
  | V s =>
      cases h
      obtain ⟨st, qu, hv⟩ := (k.disable.push (.setLevel k.level)).vBody_eq s
      exact .inl ⟨by simp [semV, hv], by simp⟩
  | acquire l =>
      simp only [exec, acquire, assertThen_ok] at h
      exact .inl ⟨(isForked_acquireLoop h.2).trans rfl, by simp⟩
  | release l =>
      simp only [exec, release, assertThen_ok, Except.ok.injEq] at h
      obtain ⟨-, rfl⟩ := h
      obtain ⟨st, qu, hw⟩ := ((k.disable.push (.setLevel k.level)).note
        (.releaseCalled l k.currentThread)).wakeOne_eq (.lock l)
      exact .inl ⟨by simp [hw], by simp⟩
  | signal c l =>
      simp only [exec, signal, assertThen_ok, Except.ok.injEq] at h
      obtain ⟨-, rfl⟩ := h
      obtain ⟨st, qu, lg, hk⟩ := k.signalOne_eq c
      exact .inl ⟨by simp [hk], by simp⟩
  | broadcast c l =>
      simp only [exec, broadcast, assertThen_ok, Except.ok.injEq] at h
      obtain ⟨-, rfl⟩ := h
      obtain ⟨st, qu, lg, hk⟩ := k.broadcastLoop_eq c (k.queue (.condition c)).length
      exact .inl ⟨by simp [hk], by simp⟩
  | yield =>
      cases h
      refine .inl ⟨?_, by simp⟩
      unfold yield findNextToRun remove
      cases k.disable.queue .readyList <;> rfl
  | fork t join start =>
      simp only [exec, fork] at h
      split at h
      · rename_i ht
        cases h
        exact .inr ⟨join, start, by rw [ht], by simp [ht]⟩
      · cases h
  | wait c l =>
      simp only [exec, wait, assertThen_ok, Except.ok.injEq] at h
      obtain ⟨-, rfl⟩ := h
      exact .inl ⟨rfl, by simp⟩
  | join t =>
      simp only [exec, joinCall, assertThen_ok, Except.ok.injEq] at h
      obtain ⟨-, rfl⟩ := h
      exact .inl ⟨rfl, by simp⟩
  | _ =>
      cases h
      exact .inl ⟨rfl, by simp⟩

theorem isForked_resume {cl : Client ρ δ α} {k k' : Kernel ρ δ} {f : Frame ρ} {lab : Label α}
    (hcall : ∀ o, f ≠ .call o) (hlab : ∀ a, lab ≠ .interrupt a)
    (h : resume cl k f lab = .ok k') : k'.isForked = k.isForked := by
  rcases resume_cases h with rfl | ⟨rfl, rfl, rfl⟩ | ⟨a, rfl, -⟩
  · cases f with
    | call o => exact absurd rfl (hcall o)
    | setLevel now =>
        cases h
        unfold Kernel.setLevel
        split <;> rfl
    | sleepLoop =>
        obtain ⟨e, es, -, rfl⟩ := sleepLoop_go h
        rfl
    | afterSwitch =>
        rcases afterSwitch_cases h with ⟨-, rfl⟩ | ⟨t, -, rfl⟩
        · rfl
        · rfl
    | pRetest s => exact isForked_pLoop h
    | acquireRetest l => exact isForked_acquireLoop h
    | waitEnqueue c l old => exact (isForked_sleep h).trans rfl
    | waitReturn c l =>
        simp only [resume, assertThen_ok, Except.ok.injEq] at h
        obtain ⟨-, rfl⟩ := h
        rfl
    | finishLoop =>
        cases h
        unfold finishLoop
        split
        · rfl
        · split <;> rfl
    | finishDone => exact (isForked_sleep h).trans rfl
    | finished => cases h
    | _ =>
        cases h
        rfl
  · rfl
  · exact absurd rfl (hlab a)

theorem handle_flags {cl : Client ρ δ α} {k k' : Kernel ρ δ} {a : α}
    (h : handle cl k a = .ok k') :
    (k'.numThreads = k.numThreads ∧ k'.join = k.join) ∧ k'.isForked = k.isForked := by
  obtain ⟨sems, data, -, rfl⟩ := handle_eq h
  obtain ⟨st, qu, v, lg, hk⟩ := foldl_vBody_eq { k with data := data } sems
  rw [hk]
  exact ⟨⟨rfl, rfl⟩, rfl⟩

/-- The members of the threads made so far; the main thread is not forked. -/
structure Flagged (k : Kernel ρ δ) : Prop where
  pos : 0 < k.numThreads
  main : k.join 0 = 0
  join : ∀ t, k.join t = 0 ∨ k.join t = 1
  isForked : ∀ t < k.numThreads, t ≠ 0 → k.isForked t = true

theorem Flagged.of_eq {k k' : Kernel ρ δ} (h : Flagged k) (hnum : k'.numThreads = k.numThreads)
    (hjoin : k'.join = k.join) (hforked : k'.isForked = k.isForked) : Flagged k' :=
  ⟨hnum ▸ h.pos, by rw [hjoin, h.main], by rw [hjoin]; exact h.join,
    by rw [hnum, hforked]; exact h.isForked⟩

theorem Flagged.of_exec {k k' : Kernel ρ δ} {o : Call ρ} (h : Flagged k)
    (ho : ∀ t join start, o = .fork t join start → join = 0 ∨ join = 1)
    (he : k.exec o = .ok k') : Flagged k' := by
  rcases exec_program he with hq | ⟨join, start, rfl, -, -, hnum, hjoin⟩
  · rcases isForked_exec he with ⟨hforked, -⟩ | ⟨join, start, rfl, -⟩
    · exact h.of_eq hq.numThreads hq.join hforked
    · have hnum : k'.numThreads = k.numThreads + 1 := by
        simp only [exec, fork, if_pos] at he
        cases he
        rfl
      exact absurd (hq.numThreads.symm.trans hnum) (Nat.ne_of_lt (Nat.lt_succ_self _))
  · have hforked : k'.isForked = Function.update k.isForked k.numThreads true := by
      rcases isForked_exec he with ⟨-, hne⟩ | ⟨_, _, -, hforked⟩
      · exact absurd rfl (hne _ _ _)
      · exact hforked
    refine ⟨by omega, ?_, ?_, ?_⟩
    · rw [hjoin, Function.update_of_ne h.pos.ne, h.main]
    · intro t
      by_cases ht : t = k.numThreads
      · subst ht
        rw [hjoin, Function.update_self]
        exact ho _ _ _ rfl
      · rw [hjoin, Function.update_of_ne ht]
        exact h.join t
    · intro t ht ht0
      by_cases hnew : t = k.numThreads
      · rw [hnew, hforked, Function.update_self]
      · rw [hforked, Function.update_of_ne hnew]
        exact h.isForked t (by omega) ht0

/-- A program that makes threads with 0 or 1 as the member `join`. -/
theorem flagged_of_runs {cl : Client ρ δ α} {start : ρ} {data : δ} {initialValue : ℕ → ℤ}
    {k : Kernel ρ δ} (hr : Runs cl start data initialValue k)
    (hcl : ∀ t pc d view a u join begin pc' d',
      cl.next t pc d view a = some (.fork u join begin, pc', d') → join = 0 ∨ join = 1) :
    Flagged k := by
  refine Reachable.invariant (I := Flagged) ⟨Nat.one_pos, rfl, fun _ => .inl rfl, ?_⟩ ?_ hr
  · intro t ht ht0
    exact absurd (Nat.lt_one_iff.1 ht) ht0
  · intro k lab k' hr h hs
    have hr : Runs cl start data initialValue k := hr
    rcases step_cases hs with ⟨o, k₀, hi, he⟩ | ⟨f, rest, hst, hcall, hres⟩
    · cases hi with
      | own a o pc data hst hnext ho =>
          have hk₀ : Flagged (k.advance pc data) := h.of_eq rfl rfl rfl
          refine hk₀.of_exec ?_ he
          rintro t join begin rfl
          exact hcl _ _ _ _ _ _ _ _ _ _ hnext
      | inner o rest hst =>
          have hk₀ : Flagged (k.setStack rest) := h.of_eq rfl rfl rfl
          refine hk₀.of_exec ?_ he
          rintro t join begin rfl
          have := hr.inner k.currentThread (.fork t join begin) (by simp [hst])
          cases this
    · by_cases hlab : ∃ a, lab = .interrupt a
      · obtain ⟨a, rfl⟩ := hlab
        obtain ⟨hq, hforked⟩ := handle_flags (resume_interrupt hst hres)
        exact h.of_eq hq.1 hq.2 hforked
      · have hlab' : ∀ a, lab ≠ .interrupt a := fun a ha => hlab ⟨a, ha⟩
        have hq : Quiet k k' := (quiet_resume hcall hlab' hres).of_eq rfl rfl rfl rfl
        have hforked := isForked_resume hcall hlab' hres
        rw [show (k.setStack rest).isForked = k.isForked from rfl] at hforked
        exact h.of_eq hq.numThreads hq.join hforked

end Kernel

namespace UserThreads

open Kernel

/-- What `canJoin` and the assertions of `Join` read of a `Thread`. -/
structure Members where
  join : ℤ
  readyToJoin : ℤ
  isForked : ℤ
  deriving DecidableEq

theorem Members.ext_iff {m n : Members} :
    m = n ↔ m.join = n.join ∧ m.readyToJoin = n.readyToJoin ∧ m.isForked = n.isForked := by
  cases m
  cases n
  simp

/-- The members of an object. Before its `Fork` a thread has no `isForked`, and `raw` is what the
memory holds there, as it is what a `Thread` that has been deleted holds. -/
def members (k : Kernel Pc Data) (raw : Members) (object : ℕ) : Members :=
  match k.data.tid object with
  | none => ⟨1, 0, raw.isForked⟩
  | some u =>
      if k.deleted u then
        raw
      else
        ⟨k.join u, if k.readyToJoin u then 1 else 0, if k.isForked u then 1 else 0⟩

/-- What `Join2` comes to after its `Get`. -/
inductive JoinOutcome where
  | returned (value : ℤ)
  /-- `Thread::Join` has made its assertions. -/
  | joins (joinThread : ℕ)
  | assertion
  deriving DecidableEq

/-- `Join2` after its `Get`, up to the `Acquire` of `Thread::Join`. -/
def join2 (k : Kernel Pc Data) (raw : Members) : Option ℕ → JoinOutcome
  | none => .returned (-65535)
  | some joinThread =>
      let m := members k raw joinThread
      if m.join = 0 then
        .returned (-65535)
      else if m.join = 1 ∧ m.readyToJoin = 0 ∧ k.data.self k.currentThread ≠ joinThread ∧
          m.isForked = 1 then
        .joins joinThread
      else
        .assertion

variable {k k' : Kernel Pc Data} {numPages : ℕ} {joinValue : ℕ → ℤ} {initialValue : ℕ → ℤ}

theorem exitLoop_ne_fork {d d' : Data} {i : ℕ} {u : Tid} {join : ℤ} {begin pc : Pc} :
    exitLoop d i ≠ (.fork u join begin, pc, d') := by
  unfold exitLoop
  split <;> simp

theorem forkLoop_ne_fork {t u : Tid} {d d' : Data} {func : BitVec 32} {newTable i : ℕ} {join : ℤ}
    {begin pc : Pc} : forkLoop t d func newTable i ≠ some (.fork u join begin, pc, d') := by
  unfold forkLoop
  split
  · split <;> simp
  · simp

/-- The threads of user programs are made with 0 or 1 as the member `join`. -/
theorem join_of_next {t : Tid} {pc pc' begin : Pc} {d d' : Data} {view : View} {a : Act} {u : Tid}
    {join : ℤ} (h : next t pc d view a = some (.fork u join begin, pc', d')) :
    join = 0 ∨ join = 1 := by
  cases a with
  | exec child willJoin numPages =>
      have hjoin : join = willJoin % 2 := by
        cases pc <;> simp_all [next, user, loading]
      omega
  | thread child =>
      refine .inr ?_
      cases pc <;> simp_all [next]
  | _ =>
      -- the other choices do not fork
      exfalso
      cases turn_of_next h with
      | other pc pc' o h₀ h' ho => cases ho
      | exec pc child join numPages hcalm =>
          cases pc <;> cases hcalm <;>
            simp_all [next, goOn, user, loading, exitLoop_ne_fork, forkLoop_ne_fork]
      | forkFork func object child => simp [next, goOn] at h

/-- A thread that runs has not been deleted. -/
theorem not_deleted_of_awake (hr : Runs client (.start (some 0)) (start numPages joinValue)
    initialValue k) (hst : k.stack k.currentThread = []) : k.deleted k.currentThread = false := by
  by_contra hdel
  obtain ⟨hb, -⟩ := (hr.placed.finished _).2 (hr.buried _ (.inr (by simpa using hdel)))
  rcases hr.placed.current with ⟨hrun, -⟩ | ⟨rest, hstack, -⟩
  · rw [hrun] at hb
    cases hb
  · rw [hst] at hstack
    cases hstack

/-- A thread of the kernel is the thread of its object. -/
theorem tid_self (hr : Runs client (.start (some 0)) (start numPages joinValue) initialValue k) :
    ∀ t < k.numThreads, k.data.tid (k.data.self t) = some t := by
  refine Reachable.invariant
    (I := fun k => ∀ t < k.numThreads, k.data.tid (k.data.self t) = some t) ?_ ?_ hr
  · intro t ht
    obtain rfl : t = 0 := Nat.lt_one_iff.1 ht
    rfl
  · intro k lab k' hr h hs
    have hr : Runs client (.start (some 0)) (start numPages joinValue) initialValue k := hr
    have hobj := objects_of_runs hr
    have hcur := hr.placed.current_lt
    rcases step_turn hcur hr.inner hs with ⟨a, o, pc, -, -, hturn, -, hadv⟩ | ⟨-, hq⟩
    · intro t ht
      by_cases hlt : t < k.numThreads
      · have hown := h t hlt
        have hself : k'.data.self t = k.data.self t := hturn.self fun join start ho =>
          hlt.ne (hadv.forked t join start ho).1
        have hmade : (k.pc k.currentThread).made ≠ some (k.data.self t) := by
          intro hmade
          rw [(hobj.made _ hcur _ hmade).2.1] at hown
          cases hown
        rw [hself, hturn.tid_eq (hobj.named _ t hown).2.2 hmade, hown]
      · obtain ⟨-, join, start, ho, -⟩ := hadv.born t (not_lt.1 hlt) ht
        exact hturn.tid_self ho
    · rw [hq.data, hq.numThreads]
      exact h

/-- `Join2` may go on with what it has found: the thread is not joinable, or it is not the caller
and nobody has got past the lock of its `Join`. -/
def Joinable (k : Kernel Pc Data) (raw : Members) : Option ℕ → Prop
  | none => True
  | some joinThread =>
      match k.data.tid joinThread with
      | none => raw.isForked = 1
      | some u =>
          if k.deleted u then
            raw.join = 0 ∨ raw = ⟨1, 0, 1⟩
          else
            k.join u = 0 ∨ u ≠ k.currentThread ∧ k.readyToJoin u = false

theorem Members.legal_iff {m : Members} {c : Prop} [Decidable c] {joinThread : ℕ} :
    ((if m.join = 0 then .returned (-65535)
        else if m.join = 1 ∧ m.readyToJoin = 0 ∧ c ∧ m.isForked = 1 then .joins joinThread
        else .assertion : JoinOutcome) = .returned (-65535) ∨
      ∃ o, (if m.join = 0 then .returned (-65535)
        else if m.join = 1 ∧ m.readyToJoin = 0 ∧ c ∧ m.isForked = 1 then .joins joinThread
        else .assertion : JoinOutcome) = .joins o) ↔
      m.join = 0 ∨ m.join = 1 ∧ m.readyToJoin = 0 ∧ c ∧ m.isForked = 1 := by
  by_cases hzero : m.join = 0
  · simp [hzero]
  · by_cases hall : m.join = 1 ∧ m.readyToJoin = 0 ∧ c ∧ m.isForked = 1
    · simp [hall]
    · simp [hzero, hall]

/-- In every state of a run in which a thread has made the `Get` of its `Join2`: the call returns
-65535 or makes a legal join when the thread that was found is not the caller and is not being
joined. A thread that `Fork2` has entered and not forked yet, and one that has been deleted since,
are judged by what the memory happens to hold. -/
theorem join2_legal_iff (numPages : ℕ) (joinValue : ℕ → ℤ) (initialValue : ℕ → ℤ)
    (k : Kernel Pc Data) (hk : Reachable (Kernel.step client)
      (initial numPages joinValue initialValue) k)
    (hst : k.stack k.currentThread = []) (found : Option ℕ) (raw : Members) :
    (join2 k raw found = .returned (-65535) ∨
        ∃ joinThread, join2 k raw found = .joins joinThread) ↔ Joinable k raw found := by
  have hr : Runs client (.start (some 0)) (start numPages joinValue) initialValue k := hk
  have hown := tid_self hr _ hr.placed.current_lt
  have hflags := flagged_of_runs hr fun _ _ _ _ _ _ _ _ _ _ h => join_of_next h
  have hlive := not_deleted_of_awake hr hst
  cases found with
  | none => exact iff_of_true (.inl rfl) trivial
  | some joinThread =>
      refine Members.legal_iff.trans ?_
      unfold Joinable members
      cases htid : k.data.tid joinThread with
      | none =>
          have hself : k.data.self k.currentThread ≠ joinThread := by
            rintro rfl
            rw [hown] at htid
            cases htid
          simp [htid, hself]
      | some u =>
          obtain ⟨hlt, hobj, -⟩ := (objects_of_runs hr).named joinThread u htid
          have hself : k.data.self k.currentThread ≠ joinThread ↔ u ≠ k.currentThread := by
            refine not_congr ⟨?_, ?_⟩
            · rintro rfl
              exact Option.some.inj (htid.symm.trans hown)
            · rintro rfl
              exact hobj
          by_cases hdel : k.deleted u = true
          · have hne : u ≠ k.currentThread := by
              rintro rfl
              rw [hlive] at hdel
              cases hdel
            simp only [htid, hdel, if_true, hself, hne, Members.ext_iff, ne_eq, not_false_eq_true,
              true_and]
          · have hforked : k.join u = 1 → k.isForked u = true := by
              intro hone
              refine hflags.isForked u hlt ?_
              rintro rfl
              rw [hflags.main] at hone
              cases hone
            simp only [htid, hdel, hself]
            rcases hflags.join u with hzero | hone
            · simp [hzero]
            · simp [hone, hforked hone, and_comm]

/-- The step of the program agrees with `join2` on a thread that has been forked and not deleted. -/
theorem step_join2 {joinThread : ℕ} {u : Tid} {freed : ℤ} (raw : Members)
    (hst : k.stack k.currentThread = []) (hpc : k.pc k.currentThread = .joinTest (some joinThread))
    (htid : k.data.tid joinThread = some u) (hdel : k.deleted u = false)
    (hself : k.data.self k.currentThread = joinThread ↔ k.currentThread = u) :
    Kernel.step client k (.act (.goOn freed)) = .error .assertion ↔
      join2 k raw (some joinThread) = .assertion := by
  have hstep : Kernel.step client k (.act (.goOn freed)) =
      if k.join u = 0 then (k.advance .run (k.data.setResult k.currentThread (some (-65535)))).exec
          .oneTick
        else (k.advance (.joinRead joinThread) k.data).exec (.join u) := by
    have hview : k.view.deleted u = false := hdel
    have hjoin : k.view.join = k.join := rfl
    simp only [Kernel.step, hst, act, client, next, goOn, hpc, joinTest, htid, hview, hjoin]
    by_cases hzero : k.join u = 0
    · simp [hzero, sysReturn, Call.isPublic]
    · simp [hzero, Call.isPublic]
  have hmem : members k raw joinThread =
      ⟨k.join u, if k.readyToJoin u then 1 else 0, if k.isForked u then 1 else 0⟩ := by
    simp [members, htid, hdel]
  rw [hstep]
  simp only [join2, hmem]
  by_cases hzero : k.join u = 0
  · simp [hzero, exec]
  · have hne : k.currentThread ≠ u ↔ k.data.self k.currentThread ≠ joinThread :=
      not_congr hself.symm
    simp only [hzero, if_false, exec, joinCall, assertThen, advance_join, advance_readyToJoin,
      advance_isForked, advance_currentThread, ← hne]
    cases k.readyToJoin u <;> cases k.isForked u <;> by_cases hone : k.join u = 1 <;>
      by_cases hcur : k.currentThread = u <;> simp [hone, hcur]

/-- The first process starts another one that can be joined. -/
def execJoinable : List (Label Act) :=
  proceed 2 ++ Label.act (Act.exec 1 1 10) :: List.replicate 3 Label.go ++ proceed 4 ++ proceed 3 ++
    proceed 2

/-- Join with the id 2, up to the test of `canJoin`. -/
def joinSecond : List (Label Act) := .act (.join 2) :: List.replicate 4 .go ++ proceed 3

theorem join2_legal_first :
    ∃ k, Reachable (Kernel.step client) (initial 10 (fun _ => 0) fun _ => 0) k ∧
      k.pc k.currentThread = .joinTest (some 1) ∧
        (join2 k ⟨0, 0, 0⟩ (some 1) = .returned (-65535) ∨
          ∃ joinThread, join2 k ⟨0, 0, 0⟩ (some 1) = .joins joinThread) := by
  have hpass : passes (Kernel.step client) (initial 10 (fun _ => 0) fun _ => 0)
      (execJoinable ++ joinSecond)
      (fun k => (k.stack k.currentThread).isEmpty ∧ k.pc k.currentThread = .joinTest (some 1) ∧
        k.data.tid 1 = some 1 ∧ k.deleted 1 = false ∧ 1 ≠ k.currentThread ∧
          k.readyToJoin 1 = false) = true := by
    decide +kernel
  obtain ⟨k, hk, hend⟩ := exists_of_passes _ hpass
  obtain ⟨hst, hpc, htid, hdel, hne, hready⟩ := of_decide_eq_true hend
  refine ⟨k, hk, hpc, ?_⟩
  refine (join2_legal_iff 10 _ _ k hk (List.isEmpty_iff.1 hst) (some 1) ⟨0, 0, 0⟩).2 ?_
  simp only [Joinable, htid, hdel]
  exact .inr ⟨hne, hready⟩

/-- The other process runs and joins itself. -/
def joinItself : List (Label Act) :=
  execJoinable ++ Label.act (Act.other .yield id) :: List.replicate 3 Label.go ++ proceed 2 ++
    Label.act (Act.back id) :: List.replicate 2 Label.go ++ joinSecond

/-- A process calls Join with its own id, and an assertion stops the machine. -/
theorem join_own_id_fails :
    ∃ k, Reachable (Kernel.step client) (initial 10 (fun _ => 0) fun _ => 0) k ∧
      k.stack k.currentThread = [] ∧
        k.pc k.currentThread = .joinTest (some (k.data.self k.currentThread)) ∧
          Kernel.step client k (.act (.goOn 0)) = .error .assertion ∧
            ∀ raw, join2 k raw (some (k.data.self k.currentThread)) = .assertion := by
  have hpass : passes (Kernel.step client) (initial 10 (fun _ => 0) fun _ => 0) joinItself
      (fun k => (k.stack k.currentThread).isEmpty ∧
        k.pc k.currentThread = .joinTest (some (k.data.self k.currentThread)) ∧
          k.data.tid (k.data.self k.currentThread) = some k.currentThread ∧
            k.deleted k.currentThread = false ∧ k.join k.currentThread = 1) = true := by
    decide +kernel
  obtain ⟨k, hk, hend⟩ := exists_of_passes _ hpass
  obtain ⟨hst, hpc, htid, hdel, hjoin⟩ := of_decide_eq_true hend
  have hst := List.isEmpty_iff.1 hst
  have hfails : ∀ raw, join2 k raw (some (k.data.self k.currentThread)) = .assertion := by
    intro raw
    simp [join2, members, htid, hdel, hjoin]
  refine ⟨k, hk, hst, hpc, ?_, hfails⟩
  exact (step_join2 ⟨0, 0, 0⟩ hst hpc htid hdel (by simp)).2 (hfails _)

end UserThreads

end Nachos
