import Nachos.Lib.Count
import Nachos.Threads.Mailbox
import Nachos.Threads.Monitor

/-!
# Pairs of `Send` and `Receive`

Whether the mailbox can leave a `Send` and a `Receive` asleep with nobody to wake them.
`Receive` signals `sendWait` when it starts and not when it empties the buffer, so a
`Send` that goes to sleep because the buffer is full is woken by a later `Receive` only.
A sleeping `Send` is not missed as long as every `Receive` that has not been served has a
`Send` that is awake; this is kept by every turn except that one.
-/

namespace Nachos

open Lib



namespace Mailbox

open Kernel

def Pc.isSend : Pc → Bool
  | .sendTest _ => true
  | _ => false

/-- The calls of `Send` that are not asleep. -/
def awakeSends (k : Kernel Pc Data) : Finset Tid :=
  (Finset.range k.numThreads).filter fun t =>
    (k.pc t).isSend ∧ t ∉ (k.queue (.condition sendWait)).map Keyed.item

/-- A `Send` and a `Receive` are asleep, and so is everybody else in the mailbox. -/
structure Stranded (k : Kernel Pc Data) : Prop where
  send : ∃ t, (k.pc t).isSend ∧ t ∈ (k.queue (.condition sendWait)).map Keyed.item
  receive : ∃ t, k.pc t = .receiveTest ∧ t ∈ (k.queue (.condition receiveWait)).map Keyed.item
  asleep : ∀ t, k.pc t ≠ .out → t ∈ (k.queue (.condition sendWait)).map Keyed.item ∨
    t ∈ (k.queue (.condition receiveWait)).map Keyed.item
  free : k.locked lock = false

/-- A `Send` that finds the buffer full leaves another `Send` awake for every `Receive` but the
one that empties the buffer. -/
def Relieved (k : Kernel Pc Data) : Label Act → Prop
  | .act _ => (k.pc k.currentThread).isSend → k.data.bufferRead = 1 →
      k.data.receivePres ≤ 1 + ((awakeSends k).erase k.currentThread).card
  | _ => True

theorem steady : client.Steady .out where
  fork := by
    intro t pc d view a c join start pc' d' h
    simp only [client, next] at h
    cases pc with
    | out =>
        cases a with
        | other o =>
            simp only at h
            split at h
            · rename_i hforeign
              cases h
              simpa [foreign] using hforeign
            · cases h
        | _ => cases h
    | sendTest message =>
        simp only [sendLoop] at h
        split at h <;> cases h
    | receiveTest =>
        simp only [receiveLoop] at h
        split at h <;> cases h
    | _ => cases h
  handler := by
    intro a d sems d' h
    cases a <;> simp [client] at h
    exact h.2.symm

/-- The thread is in `Send` and not asleep. -/
def Sends (s : Monitor Pc Data) (t : Tid) : Prop := (s.pc t).isSend = true ∧ t ∉ s.asleep 0

noncomputable instance (s : Monitor Pc Data) : DecidablePred (Sends s) := Classical.decPred _

/-- The number of `Send` calls that are not asleep. -/
noncomputable def awake (s : Monitor Pc Data) : ℕ := Nat.count (Sends s) s.numThreads

structure Fed (s : Monitor Pc Data) : Prop where
  sends : ∀ t ∈ s.asleep 0, (s.pc t).isSend = true
  receives : ∀ t ∈ s.asleep 1, s.pc t = .receiveTest
  fed : (s.asleep 0).Nonempty → s.data.receivePres ≤ s.data.bufferRead + awake s

theorem Fed.init (initialValue : ℕ → ℤ) : Fed (Kernel.init .out Data.new initialValue).monitor := by
  refine ⟨?_, ?_, ?_⟩
  · simp [monitor, SleepsOn, Kernel.init]
  · simp [monitor, SleepsOn, Kernel.init]
  · rintro ⟨t, ht⟩
    simp [monitor, SleepsOn, Kernel.init] at ht

/-- The count of `Monitor.Turn`, for the threads in `Send`. -/
theorem awake_eq_up (s : Monitor Pc Data) : awake s = s.up 0 fun pc => pc.isSend = true := rfl

variable {s s' : Monitor Pc Data} {t : Tid}

/-- The own code of a thread up to its next call. -/
inductive Move (d : Data) : Pc → Call Pc → Pc → Data → Prop
  | send (message : ℤ) : Move d .out (.acquire lock) (.sendTest message) d
  | receive : Move d .out (.acquire lock) .receiveEnter d
  | other (o : Call Pc) (h : foreign o = true) : Move d .out o .out d
  | sendSleep (message : ℤ) (h : d.bufferRead = 1 ∨ d.receivePres ≤ 0) :
      Move d (.sendTest message) (.wait sendWait lock) (.sendTest message) d
  | store (message : ℤ) (d' : Data) (h : d.bufferRead ≠ 1) (hread : d'.bufferRead = 1)
      (hpres : d'.receivePres = d.receivePres) :
      Move d (.sendTest message) (.signal receiveWait lock) .sendLeave d'
  | sendLeave : Move d .sendLeave (.release lock) .out d
  | enter (d' : Data) (hread : d'.bufferRead = d.bufferRead)
      (hpres : d'.receivePres = d.receivePres + 1) :
      Move d .receiveEnter (.signal sendWait lock) .receiveTest d'
  | receiveSleep : Move d .receiveTest (.wait receiveWait lock) .receiveTest d
  | take (d' : Data) (h : d.bufferRead ≠ 0) (hread : d'.bufferRead = 0)
      (hpres : d'.receivePres = d.receivePres - 1) : Move d .receiveTest (.release lock) .out d'

theorem move_of_next {pc pc' : Pc} {d d' : Data} {a : Act} {o : Call Pc}
    (h : next pc d a = some (o, pc', d')) : Move d pc o pc' d' := by
  cases pc with
  | out =>
      cases a with
      | send message =>
          cases h
          exact .send message
      | receive =>
          cases h
          exact .receive
      | other o' =>
          simp only [next] at h
          split at h
          · cases h
            exact .other _ ‹_›
          · cases h
      | handle sems => cases h
  | sendTest message =>
      simp only [next, sendLoop] at h
      split at h
      · cases h
        exact .sendSleep message ‹_›
      · rename_i hfree
        cases h
        exact .store message _ (fun hread => hfree (.inl hread)) rfl rfl
  | sendLeave =>
      cases h
      exact .sendLeave
  | receiveEnter =>
      cases h
      exact .enter _ rfl rfl
  | receiveTest =>
      simp only [next, receiveLoop] at h
      split at h
      · cases h
        exact .receiveSleep
      · cases h
        exact .take _ ‹_› rfl rfl

theorem about_of_foreign {o : Call Pc} (h : foreign o = true) :
    o.about ≠ some (.condition sendWait) := by
  cases o with
  | wait c l =>
      simp only [foreign, decide_eq_true_eq] at h
      simp [Call.about, h.1]
  | signal c l =>
      simp only [foreign, decide_eq_true_eq] at h
      simp [Call.about, h.1]
  | broadcast c l =>
      simp only [foreign, decide_eq_true_eq] at h
      simp [Call.about, h.1]
  | _ => simp [Call.about]

/-- A turn keeps every sleeping `Send` in view, if one that finds the buffer full is relieved. -/
theorem Fed.turn {a : Act} {o : Call Pc} {pc : Pc} (h : Fed s) (hfresh : s.Fresh .out)
    (hflag : s.data.bufferRead = 0 ∨ s.data.bufferRead = 1) (hturn : s.Turn client t a o pc s')
    (hrelieved : (s.pc t).isSend = true → s.data.bufferRead = 1 → s.data.receivePres ≤ awake s) :
    Fed s' := by
  obtain ⟨view, hnext⟩ := hturn.next
  have hmove := move_of_next hnext
  generalize hpc₀ : s.pc t = pc₀ at hmove
  generalize hd : s'.data = d at hmove
  have hrouse := hturn.rouses
  -- the other threads in `Send` stay awake
  have hloss : awake s ≤ awake s' + 1 := by
    rw [awake_eq_up, awake_eq_up]
    exact hturn.up_le_succ
  refine ⟨?_, ?_, ?_⟩
  · intro u hu
    rcases hrouse.mem hu with hold | ⟨rfl, l, rfl⟩
    · rw [hturn.pc_of_asleep hold]
      exact h.sends u hold
    · rw [hturn.pc_self]
      cases hmove with
      | other o h => simp [foreign, sendWait] at h
      | sendSleep message h => rfl
  · intro u hu
    rcases hrouse.mem hu with hold | ⟨rfl, l, rfl⟩
    · rw [hturn.pc_of_asleep hold]
      exact h.receives u hold
    · rw [hturn.pc_self]
      cases hmove with
      | other o h => simp [foreign, receiveWait] at h
      | receiveSleep => rfl
  · intro hsome
    have hkeep : o.about ≠ some (.condition (.user 0)) → (s.pc t).isSend = false →
        s'.data.receivePres - s'.data.bufferRead ≤ s.data.receivePres - s.data.bufferRead →
          s'.data.receivePres ≤ s'.data.bufferRead + awake s' := by
      intro ho hno hle
      rw [hrouse.eq_of_other ho] at hsome
      have hfed := h.fed hsome
      have hmono : awake s ≤ awake s' := by
        rw [awake_eq_up, awake_eq_up]
        exact hturn.up_le (by simp [hno])
      omega
    cases hmove with
    | send message => exact hkeep (by simp [Call.about]) (by simp [hpc₀, Pc.isSend]) (by rw [hd])
    | receive => exact hkeep (by simp [Call.about]) (by simp [hpc₀, Pc.isSend]) (by rw [hd])
    | other o ho =>
        exact hkeep (about_of_foreign ho) (by simp [hpc₀, Pc.isSend]) (by rw [hd])
    | sendSleep message hfull =>
        rw [hd]
        rcases hflag with hread | hread
        · rw [hread] at hfull ⊢
          omega
        · have := hrelieved (by simp [hpc₀, Pc.isSend]) hread
          omega
    | store message d hfree hread hpres =>
        rw [hrouse.eq_of_other (by simp [Call.about, receiveWait])] at hsome
        have hfed := h.fed hsome
        rw [hd, hread, hpres]
        rw [hflag.resolve_right hfree] at hfed
        omega
    | sendLeave => exact hkeep (by simp [Call.about]) (by simp [hpc₀, Pc.isSend]) (by rw [hd])
    | enter d hread hpres =>
        generalize hasleep : s'.asleep = asleep' at hrouse
        cases hrouse with
        | signalNobody c l hnone =>
            rw [hasleep, hnone] at hsome
            exact absurd hsome Set.not_nonempty_empty
        | signal c l u hu =>
            have hfed := h.fed ⟨u, hu⟩
            have hlt : u < s.numThreads := by
              by_contra hlt
              have hsend := h.sends u hu
              rw [hfresh u (not_lt.1 hlt)] at hsend
              cases hsend
            have hgain : awake s + 1 ≤ awake s' := by
              rw [awake_eq_up, awake_eq_up]
              exact hturn.succ_up_le (by simp [hpc₀, Pc.isSend]) hlt (h.sends u hu) hu
                (by simp [hasleep])
            rw [hd, hread, hpres]
            omega
        | other o ho => exact absurd rfl (ho 0)
    | receiveSleep =>
        exact hkeep (by simp [Call.about, receiveWait]) (by simp [hpc₀, Pc.isSend]) (by rw [hd])
    | take d hfull hread hpres =>
        refine hkeep (by simp [Call.about]) (by simp [hpc₀, Pc.isSend]) ?_
        rw [hd, hread, hpres, hflag.resolve_left hfull]
        omega

variable {k : Kernel Pc Data}

/-- In the own code of a thread the two counts agree. -/
theorem card_awakeSends {initialValue : ℕ → ℤ} (hr : Runs client .out Data.new initialValue k)
    (hnil : k.stack k.currentThread = []) : (awakeSends k).card = awake k.monitor := by
  rw [awakeSends, ← Nat.count_eq_card_filter_range]
  refine count_congr ?_
  intro t _
  exact and_congr Iff.rfl (not_congr (sleepsOn_iff_of_own hr.atomic hnil 0 t).symm)

theorem Fed.not_stranded (h : Fed k.monitor) (hk : Sound k) : ¬ Stranded k := by
  rintro ⟨⟨t, -, hsend⟩, ⟨u, hrecv, hasleep⟩, hall, -⟩
  have hreceives : ∀ v, v ∈ (k.queue (.condition receiveWait)).map Keyed.item →
      k.pc v = .receiveTest := fun v hv => h.receives v (.inl hv)
  have hsends : ∀ v, v ∈ (k.queue (.condition sendWait)).map Keyed.item →
      (k.pc v).isSend = true := fun v hv => h.sends v (.inl hv)
  have hempty : k.data.bufferRead = 0 := by
    by_contra hfull
    obtain ⟨v, hv, hnot⟩ := hk.served (hk.flag.resolve_left hfull)
    rcases hall v (by simp [hv]) with hmem | hmem
    · have := hsends v hmem
      simp [hv, Pc.isSend] at this
    · exact hnot hmem
  have hnobody : awake k.monitor = 0 := by
    rw [awake, Nat.count_iff_forall_not]
    rintro v - ⟨hv, hnot⟩
    replace hv : (k.pc v).isSend = true := hv
    rcases hall v (by rintro hout; simp [hout, Pc.isSend] at hv) with hmem | hmem
    · exact hnot (.inl hmem)
    · simp [hreceives v hmem, Pc.isSend] at hv
  have hpres : 0 < k.data.receivePres := by
    obtain ⟨S, hS, hcard⟩ := hk.counted
    have := Finset.card_pos.2 ⟨u, (hS u).2 hrecv⟩
    omega
  have hfed : k.data.receivePres ≤ k.data.bufferRead + awake k.monitor := h.fed ⟨t, .inl hsend⟩
  omega

/-- In a run in which every `Send` that finds the buffer full is relieved, the mailbox does
not leave a `Send` and a `Receive` asleep with nobody to wake them. -/
theorem mailbox_pairs (initialValue : ℕ → ℤ) (labs : List (Label Act)) (k : Kernel Pc Data)
    (hmeets : Meets (step client) Relieved (init .out Data.new initialValue) labs)
    (hrun : runFrom (step client) (init .out Data.new initialValue) labs = .ok k) :
    ¬ Stranded k := by
  have hinv := monitor_of_meets (I := Fed) steady (Fed.init initialValue) ?_ hmeets hrun
  · exact hinv.2.not_stranded (runs_sound hinv.1)
  · intro k k' a o pc hr h hrel hnil hturn
    refine h.turn (hr.fresh steady) (runs_sound hr).flag hturn ?_
    intro hsend hread
    have hself : k.currentThread ∈ awakeSends k := by
      rw [awakeSends, Finset.mem_filter, Finset.mem_range]
      refine ⟨hturn.lt, hsend, ?_⟩
      exact fun hmem => hturn.awake 0 (.inl hmem)
    have hle := hrel hsend hread
    rw [Finset.card_erase_of_mem hself, card_awakeSends hr hnil] at hle
    have hpos : 0 < awake k.monitor := by
      rw [← card_awakeSends hr hnil]
      exact Finset.card_pos.2 ⟨_, hself⟩
    change k.data.receivePres ≤ awake k.monitor
    omega

def relievedTest (k : Kernel Pc Data) : Label Act → Bool
  | .act _ => !(k.pc k.currentThread).isSend || k.data.bufferRead ≠ 1 ||
      k.data.receivePres ≤ 1 + ((awakeSends k).erase k.currentThread).card
  | _ => true

theorem relieved_of_test {lab : Label Act} (h : relievedTest k lab = true) : Relieved k lab := by
  cases lab with
  | act a =>
      intro hsend hread
      simpa [relievedTest, hsend, hread] using h
  | _ => trivial

/-- A thread sends 5 and 6 to another one, and is asleep in the second `Send` when the value 5
is taken. -/
theorem mailbox_pairs_full :
    ∃ labs k, Meets (step client) Relieved (init .out Data.new fun _ => 0) labs ∧
      runFrom (step client) (init .out Data.new fun _ => 0) labs = .ok k ∧
        k.data.taken = [5] ∧ 0 ∈ (k.queue (.condition sendWait)).map Keyed.item ∧
          ¬ Stranded k := by
  have hpass : passesMeeting (step client) relievedTest
      (fun k => k.data.taken = [5] && 0 ∈ (k.queue (.condition sendWait)).map Keyed.item)
      (init .out Data.new fun _ => 0)
      (turns [(.other (.fork 1 0 .out), 3), (.other .yield, 3), (.receive, 4), (.receive, 0),
        (.receive, 8), (.send 5, 4), (.send 5, 0), (.send 5, 3), (.send 6, 4), (.send 6, 15),
        (.receive, 3)]) = true := by
    decide +kernel
  obtain ⟨hmeets, k, hrun, hend⟩ := of_passesMeeting hpass
  replace hmeets := hmeets.imp (Q := Relieved) fun _ _ => relieved_of_test
  rw [Bool.and_eq_true, decide_eq_true_eq, decide_eq_true_eq] at hend
  exact ⟨_, k, hmeets, hrun, hend.1, hend.2, mailbox_pairs _ _ k hmeets hrun⟩

/-- Two threads are asleep in `Receive`. The main thread sends 5 and, before either of them runs,
goes to sleep in a second `Send`; the `Receive` that takes 5 does not wake it. -/
theorem mailbox_strands :
    ∃ k, Runs client .out Data.new (fun _ => 0) k ∧ Stranded k ∧
      ∀ t, k.pc t = .out → k.stack t = [] := by
  have hpass : passes (step client) (init .out Data.new fun _ => 0)
      (turns [(.other (.fork 1 0 .out), 3), (.other (.fork 2 0 .out), 3), (.other .yield, 3),
        (.receive, 4), (.receive, 0), (.receive, 7), (.receive, 4), (.receive, 0), (.receive, 8),
        (.send 5, 4), (.send 5, 0), (.send 5, 3), (.send 6, 4), (.send 6, 15), (.receive, 3)])
      (fun k => (k.pc 0).isSend && k.pc 2 = .receiveTest && k.pc 1 = .out && k.stack 1 = [] &&
        k.numThreads = 3 && !k.locked lock &&
          0 ∈ (k.queue (.condition sendWait)).map Keyed.item &&
            2 ∈ (k.queue (.condition receiveWait)).map Keyed.item) = true := by
    decide +kernel
  obtain ⟨k, hk, hend⟩ := exists_of_passes _ hpass
  simp only [Bool.and_eq_true, decide_eq_true_eq, Bool.not_eq_true'] at hend
  obtain ⟨⟨⟨⟨⟨⟨⟨h0, h2⟩, h1⟩, hs1⟩, hnum⟩, hfree⟩, hq0⟩, hq2⟩ := hend
  replace hk : Runs client .out Data.new (fun _ => 0) k := hk
  have hfresh : ∀ t, 3 ≤ t → k.pc t = .out ∧ k.stack t = [] := by
    intro t ht
    exact ⟨hk.fresh steady t (hnum.trans_le ht), hk.tidy.fresh t (hnum.trans_le ht)⟩
  refine ⟨k, hk, ⟨⟨0, h0, hq0⟩, ⟨2, h2, hq2⟩, ?_, hfree⟩, ?_⟩
  · intro t hout
    match t with
    | 0 => exact .inl hq0
    | 1 => exact absurd h1 hout
    | 2 => exact .inr hq2
    | t + 3 => exact absurd (hfresh (t + 3) (Nat.le_add_left 3 t)).1 hout
  · intro t hout
    match t with
    | 0 => simp [hout, Pc.isSend] at h0
    | 1 => exact hs1
    | 2 => simp [h2] at hout
    | t + 3 => exact (hfresh (t + 3) (Nat.le_add_left 3 t)).2

end Mailbox

end Nachos
