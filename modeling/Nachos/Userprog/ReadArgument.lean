import Nachos.Userprog.LoadArguments
import Nachos.Userprog.Exec

/-!
# Reading an argument

`readArgument` calls `ReadMem` once for each byte, and takes the FALSE that it returns after a
page fault for a bad address. What it returns depends on the pages that are resident.
-/

namespace Nachos

open Lib

namespace Exec

variable {mem : ℕ → Byte} {e k a : ℕ} {arr : List Byte} {g : Got (List Byte)} {res : ℕ → Bool}

/-! ## The string at an address -/

/-- The string of at most `k` characters at `a`, in an address space that ends at `e`: up to its
NUL, refused when it is too long, and the end of a process that goes beyond the address space. -/
structure IsString (mem : ℕ → Byte) (e k a : ℕ) (arr : List Byte) (g : Got (List Byte)) : Prop where
  string : ∀ j < k, a + j < e → mem (a + j) = 0 → (∀ i < j, mem (a + i) ≠ 0) →
    g = .got (arr ++ (List.range j).map fun i => mem (a + i))
  tooLong : (∀ j < k, a + j < e ∧ mem (a + j) ≠ 0) → g = .refused
  beyond : ∀ j < k, e ≤ a + j → (∀ i < j, a + i < e ∧ mem (a + i) ≠ 0) → g = .killed

/-- What the loop finds when the pages `res` are resident. -/
def scan (mem : ℕ → Byte) (e : ℕ) (res : ℕ → Bool) : ℕ → ℕ → List Byte → Got (List Byte)
  | 0, _, _ => .refused
  | k + 1, a, arr =>
      if e ≤ a then
        .killed
      else if res (a / pageSize) = false then
        .refused
      else if mem a = 0 then
        .got arr
      else
        scan mem e res k (a + 1) (arr ++ [mem a])

theorem forall_lt_succ {P : ℕ → Prop} :
    (∀ j < k + 1, P j) ↔ P 0 ∧ ∀ j < k, P (j + 1) := by
  constructor
  · intro h
    exact ⟨h 0 (Nat.succ_pos k), fun j hj => h (j + 1) (Nat.succ_lt_succ hj)⟩
  · rintro ⟨hzero, hsucc⟩ j hj
    cases j with
    | zero => exact hzero
    | succ j => exact hsucc j (Nat.lt_of_succ_lt_succ hj)

/-- A character that is not the last one. -/
theorem isString_succ_iff (ha : a < e) (hne : mem a ≠ 0) :
    IsString mem e (k + 1) a arr g ↔ IsString mem e k (a + 1) (arr ++ [mem a]) g := by
  have hshift : ∀ j, a + (j + 1) = a + 1 + j := by omega
  have hlist : ∀ j, arr ++ (List.range (j + 1)).map (fun i => mem (a + i)) =
      arr ++ [mem a] ++ (List.range j).map fun i => mem (a + 1 + i) := by
    intro j
    have hrest : (fun i => mem (a + i)) ∘ Nat.succ = fun i => mem (a + 1 + i) :=
      funext fun i => congrArg mem (hshift i)
    rw [List.range_succ_eq_map, List.map_cons, List.map_map, hrest, List.append_assoc]
    rfl
  constructor
  · rintro ⟨hstring, htoo, hbeyond⟩
    rw [forall_lt_succ] at hstring htoo hbeyond
    refine ⟨?_, ?_, ?_⟩
    · intro j hj hin hnul hbefore
      rw [← hlist]
      refine hstring.2 j hj (by rwa [hshift]) (by rwa [hshift]) (forall_lt_succ.2 ⟨hne, ?_⟩)
      intro i hi
      rw [hshift]
      exact hbefore i hi
    · intro hall
      refine htoo ⟨⟨ha, hne⟩, ?_⟩
      intro j hj
      rw [hshift]
      exact hall j hj
    · intro j hj hout hbefore
      refine hbeyond.2 j hj (by rwa [hshift]) (forall_lt_succ.2 ⟨⟨ha, hne⟩, ?_⟩)
      intro i hi
      rw [hshift]
      exact hbefore i hi
  · rintro ⟨hstring, htoo, hbeyond⟩
    refine ⟨forall_lt_succ.2 ⟨?_, ?_⟩, ?_, forall_lt_succ.2 ⟨?_, ?_⟩⟩
    · intro _ hnul
      exact absurd hnul hne
    · intro j hj hin hnul hbefore
      rw [hlist]
      rw [hshift] at hin hnul
      refine hstring j hj hin hnul ?_
      intro i hi
      rw [← hshift]
      exact hbefore (i + 1) (Nat.succ_lt_succ hi)
    · intro hall
      rw [forall_lt_succ] at hall
      refine htoo ?_
      intro j hj
      rw [← hshift]
      exact hall.2 j hj
    · intro hout
      exact absurd ha (Nat.not_lt.2 hout)
    · intro j hj hout hbefore
      rw [hshift] at hout
      refine hbeyond j hj hout ?_
      intro i hi
      rw [← hshift]
      exact hbefore (i + 1) (Nat.succ_lt_succ hi)

/-- There is one such string: the loop finds it when every page is resident. -/
theorem isString_iff : IsString mem e k a arr g ↔ g = scan mem e (fun _ => true) k a arr := by
  induction k generalizing a arr with
  | zero =>
      constructor
      · intro h
        exact h.tooLong fun j hj => absurd hj (Nat.not_lt_zero j)
      · rintro rfl
        exact ⟨fun j hj => absurd hj (Nat.not_lt_zero j), fun _ => rfl,
          fun j hj => absurd hj (Nat.not_lt_zero j)⟩
  | succ k ih =>
      rw [scan]
      by_cases ha : a < e
      · rw [if_neg (Nat.not_le.2 ha), if_neg (by simp)]
        by_cases hnul : mem a = 0
        · rw [if_pos hnul]
          constructor
          · intro h
            have := h.string 0 (Nat.succ_pos k) ha hnul fun i hi => absurd hi (Nat.not_lt_zero i)
            simpa using this
          · rintro rfl
            refine ⟨forall_lt_succ.2 ⟨?_, ?_⟩, ?_, forall_lt_succ.2 ⟨?_, ?_⟩⟩
            · intro _ _ _
              simp
            · intro j hj _ _ hbefore
              exact absurd hnul (hbefore 0 (Nat.succ_pos j))
            · intro hall
              exact absurd hnul (hall 0 (Nat.succ_pos k)).2
            · intro hout
              exact absurd ha (Nat.not_lt.2 hout)
            · intro j hj _ hbefore
              exact absurd hnul (hbefore 0 (Nat.succ_pos j)).2
        · rw [if_neg hnul, isString_succ_iff ha hnul, ih]
      · rw [if_pos (Nat.not_lt.1 ha)]
        constructor
        · intro h
          exact h.beyond 0 (Nat.succ_pos k) (Nat.not_lt.1 ha) fun i hi =>
            absurd hi (Nat.not_lt_zero i)
        · rintro rfl
          refine ⟨?_, ?_, fun _ _ _ _ => rfl⟩
          · intro j hj hin
            exact absurd (Nat.lt_of_le_of_lt (Nat.le_add_right a j) hin) ha
          · intro hall
            exact absurd (hall 0 (Nat.succ_pos k)).1 ha

theorem IsString.unique {g' : Got (List Byte)} (h : IsString mem e k a arr g)
    (h' : IsString mem e k a arr g') : g = g' :=
  (isString_iff.1 h).trans (isString_iff.1 h').symm

/-- The string that is too long is the one that is refused. -/
theorem scan_eq_refused_iff : scan mem e (fun _ => true) k a arr = .refused ↔
    ∀ j < k, a + j < e ∧ mem (a + j) ≠ 0 := by
  constructor
  · intro h
    induction k generalizing a arr with
    | zero => exact fun j hj => absurd hj (Nat.not_lt_zero j)
    | succ k ih =>
        rw [scan] at h
        split at h
        · cases h
        · rename_i ha
          rw [if_neg (by simp)] at h
          split at h
          · cases h
          · rename_i hne
            refine forall_lt_succ.2 ⟨⟨Nat.not_le.1 ha, hne⟩, ?_⟩
            intro j hj
            rw [Nat.add_comm j 1, ← Nat.add_assoc]
            exact ih h j hj
  · intro h
    exact ((isString_iff.2 rfl).tooLong h)

/-- Pages that are not resident make no difference when the loop does not come to them, or when
the string is refused anyhow. -/
theorem scan_eq_iff : scan mem e res k a arr = scan mem e (fun _ => true) k a arr ↔
    (∀ j < k, a + j < e ∧ mem (a + j) ≠ 0) ∨
      ∀ j < k, a + j < e → (∀ i < j, mem (a + i) ≠ 0) → res ((a + j) / pageSize) = true := by
  rw [← @scan_eq_refused_iff mem e k a arr]
  induction k generalizing a arr with
  | zero => simp [scan]
  | succ k ih =>
      have hshift : ∀ j, a + (j + 1) = a + 1 + j := by omega
      rw [scan, scan]
      by_cases ha : a < e
      · simp only [if_neg (Nat.not_le.2 ha), if_neg (show ¬ true = false by simp)]
        cases hres : res (a / pageSize) with
        | false =>
            simp only [if_true]
            constructor
            · intro h
              exact .inl h.symm
            · rintro (h | h)
              · exact h.symm
              · have := h 0 (Nat.succ_pos k) ha fun i hi => absurd hi (Nat.not_lt_zero i)
                rw [Nat.add_zero, hres] at this
                cases this
        | true =>
            simp only [if_neg (show ¬ true = false by simp)]
            by_cases hnul : mem a = 0
            · simp only [if_pos hnul, true_iff]
              refine .inr (forall_lt_succ.2 ⟨fun _ _ => hres, ?_⟩)
              intro j hj _ hbefore
              exact absurd hnul (hbefore 0 (Nat.succ_pos j))
            · simp only [if_neg hnul]
              rw [ih]
              refine or_congr_right ?_
              rw [forall_lt_succ]
              constructor
              · intro h
                refine ⟨fun _ _ => hres, ?_⟩
                intro j hj hin hbefore
                rw [hshift] at hin ⊢
                refine h j hj hin ?_
                intro i hi
                rw [← hshift]
                exact hbefore (i + 1) (Nat.succ_lt_succ hi)
              · rintro ⟨-, h⟩ j hj hin hbefore
                rw [← hshift] at hin ⊢
                refine h j hj hin (forall_lt_succ.2 ⟨hnul, ?_⟩)
                intro i hi
                rw [hshift]
                exact hbefore i hi
      · simp only [if_pos (Nat.not_lt.1 ha), true_iff]
        refine .inr ?_
        intro j hj hin
        exact absurd (Nat.lt_of_le_of_lt (Nat.le_add_right a j) hin) ha

/-! ## `readArgument` -/

open VM LoadArguments

variable {env : Environment} {s s' : VM} {p n : ℕ} {addr str : BitVec 32}

theorem readMem_got (hlru : env.lru = false) (h : Starting s p n) (hin : addr.toNat < n * pageSize)
    (hvalid : (s.pte p (vpnOf addr)).valid = true) :
    ∃ s', s.readMem env.lru env.stack p 1 addr =
        .ok (.got ((s.flat p addr.toNat).signExtend 32), s') ∧
      Starting s' p n ∧ s'.flat p = s.flat p ∧ SameFrames s s' := by
  rw [hlru]
  obtain ⟨s', value, hread, hload, hserved, hsame⟩ :=
    readMem_of_valid env.stack h (.inl rfl) (by simp [misaligned]) (vpnOf_lt_iff.2 hin) hvalid
  cases hload
  refine ⟨s', hread, h.served hserved, ?_, hsame⟩
  rw [hserved.flat_eq, replay_cons (by simp)]
  rfl

theorem readMem_refused (hlru : env.lru = false) (h : Starting s p n)
    (hin : addr.toNat < n * pageSize) (hvalid : (s.pte p (vpnOf addr)).valid = false) :
    ∃ s', s.readMem env.lru env.stack p 1 addr = .ok (.refused, s') := by
  rw [hlru]
  have halign : ¬ misaligned addr 1 := by simp [misaligned]
  obtain ⟨s', hread, -⟩ := readMem_of_invalid env.stack h halign (vpnOf_lt_iff.2 hin) hvalid
  exact ⟨s', hread⟩

theorem readMem_killed (h : Starting s p n) (hout : n * pageSize ≤ addr.toNat) :
    ∃ s', s.readMem env.lru env.stack p 1 addr = .ok (.killed, s') := by
  have hv : (s.procs p).space.numPages ≤ vpnOf addr := by
    rw [h.numPages, ← Nat.not_lt, vpnOf_lt_iff, Nat.not_lt]
    exact hout
  have htr : translate s.numPhysPages (s.procs p).space.pageTable (s.procs p).space.numPages addr 1
      false = .ok (.exception .addressError) := translate_addressError (by simp [misaligned]) hv
  refine ⟨(s.sysCallExit p).record p (.readMem addr 1) .killed, ?_⟩
  simp only [readMem, access, Request.addr, Request.size, Request.writing, htr, record]

/-- The pages that are resident are the same. -/
theorem valid_of_sameFrames (h : Starting s p n) (h' : Starting s' p n) (hsame : SameFrames s s')
    {v : ℕ} (hv : v < n) : (s'.pte p v).valid = (s.pte p v).valid := by
  rw [Bool.eq_iff_iff]
  constructor
  · intro hvalid
    exact ((hsame.mapped (p, v) _).1 ⟨h'.lt, by rwa [h'.numPages], hvalid, rfl⟩).2.2.1
  · intro hvalid
    exact ((hsame.mapped (p, v) _).2 ⟨h.lt, by rwa [h.numPages], hvalid, rfl⟩).2.2.1

theorem setWidth_signExtend (b : Byte) : (b.signExtend 32).setWidth 8 = b := by
  revert b
  decide

/-- The loop finds what the resident pages let it. -/
theorem readString_eq (hlru : env.lru = false) (h : Starting s p n) (hmax : n * pageSize ≤ 2 ^ 31)
    (hstr : str.toNat < n * pageSize) (hflat : s.flat p = mem)
    (hres : ∀ v < n, (s.pte p v).valid = res v) {i : ℕ} (hi : i + k ≤ MAX) :
    ∃ s', readString (VM.readMem env.lru env.stack p 1) str k i arr s =
      .ok (scan mem (n * pageSize) res k (str.toNat + i) arr, s') := by
  induction k generalizing i arr s with
  | zero => exact ⟨s, rfl⟩
  | succ k ih =>
      have hMAX : MAX = 50 := rfl
      have haddr : (str + BitVec.ofNat 32 i).toNat = str.toNat + i := by
        rw [BitVec.toNat_add, BitVec.toNat_ofNat]
        omega
      rw [readString, scan]
      by_cases hin : str.toNat + i < n * pageSize
      · rw [if_neg (Nat.not_le.2 hin)]
        rw [← haddr] at hin
        have hpage := hres _ (vpnOf_lt_iff.2 hin)
        have hv : vpnOf (str + BitVec.ofNat 32 i) = (str.toNat + i) / pageSize := by
          rw [vpnOf, haddr]
        rw [← hv, ← hpage]
        cases hvalid : (s.pte p (vpnOf (str + BitVec.ofNat 32 i))).valid with
        | false =>
            obtain ⟨s', hs'⟩ := readMem_refused hlru h hin hvalid
            exact ⟨s', by simp only [hs', if_true]⟩
        | true =>
            obtain ⟨s₁, hs₁, hst, hflat₁, hsame⟩ := readMem_got hlru h hin hvalid
            rw [hflat, haddr] at hs₁
            simp only [hs₁, setWidth_signExtend, if_neg (show ¬ true = false by simp)]
            by_cases hnul : mem (str.toNat + i) = 0
            · exact ⟨s₁, by rw [if_pos (show _ = 0#8 from hnul), if_pos hnul]⟩
            · rw [if_neg (show ¬ _ = 0#8 from hnul), if_neg hnul, Nat.add_assoc]
              exact ih hst (hflat₁.trans hflat)
                (fun v hv => (valid_of_sameFrames h hst hsame hv).trans (hres v hv)) (by omega)
      · rw [if_pos (Nat.not_lt.1 hin)]
        obtain ⟨s', hs'⟩ := @readMem_killed env s p n _ h (by rw [haddr]; exact Nat.not_lt.1 hin)
        exact ⟨s', by simp only [hs']⟩

/-- The machine at some time of a run. -/
def Reached (s : VM) : Prop :=
  ∃ numPhysPages maxProcess words s₀ ops, 0 < numPhysPages ∧
    boot numPhysPages maxProcess words = .ok s₀ ∧ (∀ op ∈ ops, op.WellFormed) ∧
      runFrom (VM.step false) s₀ ops = .ok s

theorem Reached.transparent (h : Reached s) : Transparent s := by
  obtain ⟨numPhysPages, maxProcess, words, s₀, ops, hn, h₀, hops, hrun⟩ := h
  exact (transparent_run hn h₀ hops hrun).1

/-- The processes have the same memory. -/
def SameMemory (s₁ : VM) (p₁ : ℕ) (s₂ : VM) (p₂ : ℕ) : Prop :=
  lastAddr s₁ p₁ = lastAddr s₂ p₂ ∧ s₁.flat p₁ = s₂.flat p₂

/-- Every page that a byte of the argument is in, up to its NUL or to the end of the address
space, is resident, or the argument is too long. -/
def ArgumentResident (s : VM) (p str : ℕ) : Prop :=
  (∀ j < MAX, str + j < lastAddr s p ∧ s.flat p (str + j) ≠ 0) ∨
    ∀ j < MAX, str + j < lastAddr s p → (∀ i < j, s.flat p (str + i) ≠ 0) →
      (s.pte p ((str + j) / pageSize)).valid = true

/-- What `readArgument` returns is the argument exactly when the pages of it are resident. -/
theorem readArgument_isString_iff (hlru : env.lru = false) (h : Transparent s) (hp : s.Running p)
    (hstr : str.toNat < lastAddr s p) :
    ∃ g s', readArgument env p str s = .ok (g, s') ∧
      (IsString (s.flat p) (lastAddr s p) MAX str.toNat [] g ↔
        ArgumentResident s p str.toNat) := by
  obtain ⟨s', hs'⟩ := @readString_eq (s.flat p) MAX [] (fun v => (s.pte p v).valid) env s p
    (s.procs p).space.numPages str hlru ⟨h, hp.1, hp.2, rfl⟩ (h.programs.range p hp.1) hstr rfl
    (fun _ _ => rfl) 0 (by rw [Nat.zero_add])
  refine ⟨_, s', hs', ?_⟩
  rw [Nat.add_zero, isString_iff]
  exact scan_eq_iff

/-- Whatever has happened in two runs, two processes with the same memory get the same string
from `readArgument` when the pages of the string are resident, and otherwise they need not. -/
theorem readArgument_residency {s₁ s₂ : VM} {p₁ p₂ : ℕ} (hlru : env.lru = false)
    (h₁ : Reached s₁) (h₂ : Reached s₂) (hp₁ : s₁.Running p₁) (hp₂ : s₂.Running p₂)
    (hsame : SameMemory s₁ p₁ s₂ p₂) (hstr : str.toNat < lastAddr s₁ p₁) :
    ∃ g₁ s₁' g₂ s₂', readArgument env p₁ str s₁ = .ok (g₁, s₁') ∧
      readArgument env p₂ str s₂ = .ok (g₂, s₂') ∧
        ((IsString (s₁.flat p₁) (lastAddr s₁ p₁) MAX str.toNat [] g₁ ∧
            IsString (s₁.flat p₁) (lastAddr s₁ p₁) MAX str.toNat [] g₂ ∧ g₁ = g₂) ↔
          ArgumentResident s₁ p₁ str.toNat ∧ ArgumentResident s₂ p₂ str.toNat) := by
  obtain ⟨g₁, s₁', hread₁, hiff₁⟩ := readArgument_isString_iff hlru h₁.transparent hp₁ hstr
  obtain ⟨g₂, s₂', hread₂, hiff₂⟩ := readArgument_isString_iff hlru h₂.transparent hp₂
    (by rwa [← hsame.1])
  refine ⟨g₁, s₁', g₂, s₂', hread₁, hread₂, ?_⟩
  rw [← hsame.1, ← hsame.2] at hiff₂
  rw [← hiff₁, ← hiff₂]
  constructor
  · rintro ⟨hstring₁, hstring₂, -⟩
    exact ⟨hstring₁, hstring₂⟩
  · rintro ⟨hstring₁, hstring₂⟩
    exact ⟨hstring₁, hstring₂, hstring₁.unique hstring₂⟩

/-- The first process, before and after its first page has been brought in. -/
theorem sevenProgram_states :
    ∃ s₁ s₂, Reached s₁ ∧ Reached s₂ ∧ s₁.Running 0 ∧ s₂.Running 0 ∧ SameMemory s₁ 0 s₂ 0 ∧
      s₁.flat 0 = sevenProgram.image ∧ 1536 ≤ lastAddr s₁ 0 ∧ (s₁.pte 0 0).valid = false ∧
        (s₂.pte 0 0).valid = true := by
  obtain ⟨s₀, s₁, h₀, hs₁, htrans, -, hfresh, hexe⟩ := sevenProgram_fresh
  have hsize := (hfresh.lastAddr_range htrans).1
  have hv : vpnOf 0 < (s₁.procs 0).space.numPages := by
    rw [vpnOf_lt_iff]
    exact Nat.lt_of_lt_of_le (by decide) hsize
  obtain ⟨s₂, haccess, hserved, -⟩ := @Transparent.access_pageFault s₁ 0 htrans (.readMem 0 1)
    (fun _ => 0) hfresh.running.1 (by decide) hv (hfresh.invalid _)
  have hexec : Op.WellFormed (.exec sevenProgram (fun _ => 0) (fun _ => 0) true) :=
    sevenProgram_loadable
  have hread : Op.WellFormed (.access 0 (.readMem 0 1) fun _ => 0) := ⟨by decide, by decide⟩
  have hs₂ : runFrom (VM.step false) s₀ ([.exec sevenProgram (fun _ => 0) (fun _ => 0) true] ++
      [.access 0 (.readMem 0 1) fun _ => 0]) = .ok s₂ := by
    refine (runFrom_append_ok _ _ _ _ _).2 ⟨s₁, hs₁, ?_⟩
    refine (runFrom_cons_ok _ _ _ _ _).2 ⟨s₂, ?_, rfl⟩
    rw [VM.step, if_pos hfresh.running, haccess]
  have hstart := Starting.served ⟨htrans, hfresh.running.1, hfresh.running.2, rfl⟩ hserved
  refine ⟨s₁, s₂, ⟨32, 50, _, s₀, _, by decide, h₀, by simpa using hexec, hs₁⟩,
    ⟨32, 50, _, s₀, _, by decide, h₀, by simpa using ⟨hexec, hread⟩, hs₂⟩, hfresh.running,
    ⟨hstart.lt, hstart.alive⟩, ⟨?_, ?_⟩, ?_, hsize, hfresh.invalid 0, ?_⟩
  · rw [lastAddr, lastAddr, hstart.numPages]
  · rw [hserved.flat_eq, replay_cons (by simp)]
    rfl
  · rw [hfresh.flat_eq, hexe]
  · exact hserved.transparent.reissue _ _ hserved.kept.log rfl

/-- The string of one character at the start of the program. -/
theorem isString_seven {e : ℕ} (he : 1536 ≤ e)
    (h : IsString sevenProgram.image e MAX 0 [] g) : g = .got [7] := by
  have hbytes : sevenProgram.image 0 = 7 ∧ sevenProgram.image 1 = 0 := by decide
  have hstring := h.string 1 (by decide) (by omega) hbytes.2 (by
    intro i hi
    cases Nat.lt_one_iff.1 hi
    rw [hbytes.1]
    decide)
  simpa [hbytes.1] using hstring

theorem argumentResident_zero (hvalid : (s.pte p 0).valid = true) : ArgumentResident s p 0 := by
  refine .inr ?_
  intro j hj _ _
  have hpage : (0 + j) / pageSize = 0 := by
    rw [Nat.zero_add]
    exact Nat.div_eq_of_lt (Nat.lt_trans hj (by decide))
  rwa [hpage]

/-- The argument is read when its page is resident. -/
theorem readArgument_seven :
    ∃ s s', Reached s ∧ s.Running 0 ∧
      readArgument someEnvironment 0 0 s = .ok (.got [7], s') := by
  obtain ⟨s₁, s, -, hreached, -, hrun, hsame, hflat, hsize, -, hvalid⟩ := sevenProgram_states
  have hsize' : 1536 ≤ lastAddr s 0 := by rwa [← hsame.1]
  obtain ⟨g, s', g', s'', hread, -, hiff⟩ := @readArgument_residency someEnvironment 0 s s 0 0 rfl
    hreached hreached hrun hrun ⟨rfl, rfl⟩ (Nat.lt_of_lt_of_le (by decide) hsize')
  have hresident := argumentResident_zero hvalid
  have hstring := (hiff.2 ⟨hresident, hresident⟩).1
  rw [← hsame.2, hflat] at hstring
  cases isString_seven hsize' hstring
  exact ⟨s, s', hreached, hrun, hread⟩

/-- With the same memory, the argument is refused when its page is not resident. -/
theorem readArgument_depends_on_residency :
    ∃ s₁ s₂ s₁' s₂', Reached s₁ ∧ Reached s₂ ∧ s₁.Running 0 ∧ s₂.Running 0 ∧
      SameMemory s₁ 0 s₂ 0 ∧ 0 < lastAddr s₁ 0 ∧
        readArgument someEnvironment 0 0 s₁ = .ok (.refused, s₁') ∧
          readArgument someEnvironment 0 0 s₂ = .ok (.got [7], s₂') := by
  obtain ⟨s₁, s₂, h₁, h₂, hrun₁, hrun₂, hsame, hflat, hsize, hinvalid, hvalid⟩ :=
    sevenProgram_states
  obtain ⟨s₁', hread₁⟩ := @readMem_refused someEnvironment s₁ 0 (s₁.procs 0).space.numPages 0 rfl
    ⟨h₁.transparent, hrun₁.1, hrun₁.2, rfl⟩ (Nat.lt_of_lt_of_le (by decide) hsize) hinvalid
  have hsize' : 1536 ≤ lastAddr s₂ 0 := by rwa [← hsame.1]
  obtain ⟨g, s₂', hread₂, hiff⟩ := @readArgument_isString_iff someEnvironment s₂ 0 0 rfl
    h₂.transparent hrun₂ (Nat.lt_of_lt_of_le (by decide) hsize')
  have hstring := hiff.2 (argumentResident_zero hvalid)
  rw [← hsame.2, hflat] at hstring
  cases isString_seven hsize' hstring
  refine ⟨s₁, s₂, s₁', s₂', h₁, h₂, hrun₁, hrun₂, hsame, Nat.lt_of_lt_of_le (by decide) hsize, ?_,
    hread₂⟩
  rw [readArgument, show MAX = 49 + 1 from rfl, readString]
  simp only [BitVec.add_zero, hread₁]

end Exec

end Nachos
