import Nachos.Userprog.FlatMemory
import Nachos.Filesys.Disk
import Nachos.Lib.FirstTouch

/-!
# The arguments of a new process

`AddrSpace::LoadArguments`, which `ProcessStartExec` calls in a new thread, when no other one runs
beside it until it comes to `machine->Run`. The strings are stored below the end of the address
space, one below the other, and under them the array of pointers.

`WriteMem` returns FALSE after a page fault, when the page has been brought in but nothing has
been written. `LoadArguments` calls it once and ignores what it returns.
-/

namespace Nachos

open Lib

namespace LoadArguments

/-- A call of `WriteMem`. -/
structure Store where
  addr : BitVec 32
  size : ℕ
  value : BitVec 32

def Store.request (w : Store) : Request := .writeMem w.addr w.size w.value

/-- `machine->WriteMem` by `p`. The thread does not go on when it has exited in the handler of
the exception. -/
def writeMem (stack : ℕ → ℕ → Byte) (p : ℕ) (s : VM) (w : Store) : Except Fault (Bool × VM) :=
  match s.access false p w.request (stack s.log.length) with
  | .error e => .error e
  | .ok s' => .ok ((s'.procs p).alive, s')

/-- The calls of a loop. -/
def writeAll (stack : ℕ → ℕ → Byte) (p : ℕ) : List Store → VM → Except Fault (Bool × VM)
  | [], s => .ok (true, s)
  | w :: ws, s =>
      match writeMem stack p s w with
      | .error e => .error e
      | .ok (false, s') => .ok (false, s')
      | .ok (true, s') => writeAll stack p ws s'

/-- `WriteMem(sp+k, 1, (int)temp[k])` for `k <= j`. -/
def byteStores (sp : BitVec 32) (temp : List Byte) : List Store :=
  (List.range (temp.length + 1)).map fun k =>
    { addr := sp + BitVec.ofNat 32 k
      size := 1
      value := (temp.getD k 0).signExtend 32 }

/-- `WriteMem(sp+(i*4), 4, arr[i])` for `i < argc`. -/
def pointerStores (sp : BitVec 32) (arr : List (BitVec 32)) : List Store :=
  (List.range arr.length).map fun i =>
    { addr := sp + BitVec.ofNat 32 (i * 4)
      size := 4
      value := arr.getD i 0 }

def checkSP (start last : BitVec 32) : BitVec 32 := last - start

/-- What a part of `LoadArguments` comes to. -/
inductive Loading (α : Type) where
  | goesOn (a : α)
  /-- `LoadArguments` returns 0. -/
  | refused
  /-- The thread has exited. -/
  | exited

/-- The loop over the strings: `sp` and `arr` after it. -/
def loadStrings (stack : ℕ → ℕ → Byte) (p : ℕ) (last : BitVec 32) :
    List (List Byte) → BitVec 32 → List (BitVec 32) → VM →
      Except Fault (Loading (BitVec 32 × List (BitVec 32)) × VM)
  | [], sp, arr, s => .ok (.goesOn (sp, arr), s)
  | temp :: argv, sp, arr, s =>
      let sp := sp - BitVec.ofNat 32 (temp.length + 1)
      if checkSP sp last = 0 then
        .ok (.refused, s)
      else
        match writeAll stack p (byteStores sp temp) s with
        | .error e => .error e
        | .ok (false, s') => .ok (.exited, s')
        | .ok (true, s') => loadStrings stack p last argv sp (arr ++ [sp]) s'

/-- The registers that `LoadArguments` writes. -/
structure Registers where
  stackReg : BitVec 32
  r4 : BitVec 32
  r5 : BitVec 32

/-- The end of the address space of `p`. -/
def lastAddr (s : VM) (p : ℕ) : ℕ := (s.procs p).space.numPages * pageSize

/-- `AddrSpace::LoadArguments`. -/
def loadArguments (stack : ℕ → ℕ → Byte) (p : ℕ) (argv : List (List Byte)) (s : VM) :
    Except Fault (Loading Registers × VM) :=
  let last := BitVec.ofNat 32 (lastAddr s p)
  match loadStrings stack p last argv last [] s with
  | .error e => .error e
  | .ok (.refused, s') => .ok (.refused, s')
  | .ok (.exited, s') => .ok (.exited, s')
  | .ok (.goesOn (sp, arr), s') =>
      let sp := sp - BitVec.ofNat 32 (argv.length * 4)
      let sp := sp - sp.srem 4
      if checkSP sp last = 0 then
        .ok (.refused, s')
      else
        match writeAll stack p (pointerStores sp arr) s' with
        | .error e => .error e
        | .ok (false, s'') => .ok (.exited, s'')
        | .ok (true, s'') =>
            .ok (.goesOn
              { stackReg := sp - 16
                r4 := BitVec.ofNat 32 argv.length
                r5 := sp }, s'')

end LoadArguments

/-! ## The pages of the new process -/

namespace VM

variable {s s' : VM} {p v : ℕ} {pages : List ℕ}

/-- The resident pages of `p` are `pages`, and those that were brought in last. -/
def Recent (s : VM) (p : ℕ) (pages : List ℕ) : Prop :=
  ∃ others mine, s.Accounts (others ++ mine) [] ∧ (∀ x ∈ others, x.1.1 ≠ p) ∧
    mine.map Prod.fst = pages.map fun v => (p, v)

theorem Recent.valid_iff (h : s.Recent p pages) (hp : p < s.numProcs)
    (hv : v < (s.procs p).space.numPages) : (s.pte p v).valid = true ↔ v ∈ pages := by
  obtain ⟨others, mine, hacc, hothers, hmine⟩ := h
  have hmem : (p, v) ∈ mine.map Prod.fst ↔ v ∈ pages := by
    rw [hmine]
    simp
  rw [← hmem]
  constructor
  · intro hvalid
    rcases List.mem_append.1 ((hacc.mapped (p, v) _).2 ⟨hp, hv, hvalid, rfl⟩) with hin | hin
    · exact absurd rfl (hothers _ hin)
    · exact List.mem_map.2 ⟨_, hin, rfl⟩
  · intro hin
    obtain ⟨⟨w, f⟩, hin, rfl⟩ := List.mem_map.1 hin
    exact ((hacc.mapped _ f).1 (List.mem_append_right others hin)).2.2.1

/-- No page of the process is resident. -/
theorem recent_nil (h : Sound s) (hinvalid : ∀ v, (s.pte p v).valid = false) : s.Recent p [] := by
  obtain ⟨resident, hacc⟩ := h.accounts
  refine ⟨resident, [], by rwa [List.append_nil], ?_, rfl⟩
  rintro ⟨⟨q, w⟩, f⟩ hmem rfl
  have hvalid := ((hacc.mapped _ f).1 hmem).2.2.1
  rw [hinvalid] at hvalid
  cases hvalid

theorem Recent.congr (h : s.Recent p pages) (hsame : SameFrames s s') : s'.Recent p pages := by
  obtain ⟨others, mine, hacc, hrest⟩ := h
  exact ⟨others, mine, hacc.congr hsame, hrest⟩

/-- A page fault evicts a page of another process, as long as there are fewer pages of `p` than
frames. -/
theorem Recent.fault (h : s.Recent p pages) (hlen : pages.length < s.numPhysPages)
    (hfault : ∀ resident, s.Accounts resident [] → ∃ rest f, s.Dropped resident rest ∧
      s'.Accounts (rest ++ [((p, v), f)]) []) : s'.Recent p (pages ++ [v]) := by
  obtain ⟨others, mine, hacc, hothers, hmine⟩ := h
  obtain ⟨rest, f, hdrop, hacc'⟩ := hfault _ hacc
  have hmine' : (mine ++ [((p, v), f)]).map Prod.fst = (pages ++ [v]).map fun v => (p, v) := by
    simp [hmine]
  rcases hdrop with rfl | ⟨hfull, x, hx⟩
  · exact ⟨others, _, by rwa [← List.append_assoc], hothers, hmine'⟩
  · cases others with
    | nil =>
        have hmineLen := congrArg List.length hmine
        rw [List.length_map, List.length_map] at hmineLen
        rw [List.nil_append] at hfull
        omega
    | cons y others =>
        obtain ⟨rfl, rfl⟩ := List.cons.inj hx
        exact ⟨others, _, by rwa [← List.append_assoc],
          fun z hz => hothers z (List.mem_cons_of_mem _ hz), hmine'⟩

theorem Served.flat_eq {r : Request} {o : Outcome} (h : s.Served p r o s') (q : ℕ) :
    s'.flat q = replay (s.procs q).space.currentExecutable.image q (⟨p, r, o⟩ :: s.log) := by
  rw [flat, h.kept.log, h.kept.executable]

end VM

namespace LoadArguments

open VM

variable {s s' : VM} {p : ℕ} {pages : List ℕ} {w : Store} {ws : List Store}
  (stack : ℕ → ℕ → Byte)

/-- What the call is to store. -/
def Store.put (w : Store) : Put Byte where
  addr := w.addr.toNat
  len := w.size
  cell := fun k => w.value.extractLsb' (8 * k) 8

/-- The request is one that an instruction could make. -/
def Store.Aligned (w : Store) : Prop := Sized w.size ∧ ¬ misaligned w.addr w.size

/-- What a call comes to when `pages` are resident. -/
def Store.outcome (w : Store) (pages : List ℕ) : Outcome :=
  if vpnOf w.addr ∈ pages then .written else .pageFault

/-- A call inside the address space: nothing is stored when the page has to be brought in. -/
theorem writeMem_spec (h : Transparent s) (hrec : s.Recent p pages) (hp : p < s.numProcs)
    (halive : (s.procs p).alive = true) (hw : w.Aligned)
    (hv : vpnOf w.addr < (s.procs p).space.numPages)
    (hlen : vpnOf w.addr ∉ pages → pages.length < s.numPhysPages) :
    ∃ s', writeMem stack p s w = .ok (true, s') ∧ s.Served p w.request (w.outcome pages) s' ∧
      s'.Recent p (touch pageSize (s.flat p, pages) w.put).2 ∧
        s'.flat p = (touch pageSize (s.flat p, pages) w.put).1 := by
  obtain ⟨addr, size, value⟩ := w
  have hgoes : ∀ {s' : VM} {o : Outcome}, s.Served p (.writeMem addr size value) o s' →
      (s'.procs p).alive = true := by
    intro s' o hserved
    rw [hserved.kept.alive]
    exact halive
  unfold touch writeMem
  by_cases hin : vpnOf addr ∈ pages
  · obtain ⟨s', haccess, hserved, hsame⟩ := @Transparent.access_writeMem s p h addr size value
      (stack s.log.length) hp hw.1 hw.2 hv ((hrec.valid_iff hp hv).2 hin)
    have hpage : (Store.put ⟨addr, size, value⟩).page pageSize ∈ pages := hin
    simp only [Store.request, haccess, hgoes hserved, if_pos hpage]
    refine ⟨s', rfl, by rwa [Store.outcome, if_pos hin], hrec.congr hsame, ?_⟩
    rw [hserved.flat_eq, replay, if_pos rfl]
    rfl
  · have hinvalid : (s.pte p (vpnOf addr)).valid = false := by
      rw [← Bool.not_eq_true, hrec.valid_iff hp hv]
      exact hin
    obtain ⟨s', haccess, hserved, hfault⟩ := @Transparent.access_pageFault s p h
      (.writeMem addr size value) (stack s.log.length) hp hw.2 hv hinvalid
    have hpage : (Store.put ⟨addr, size, value⟩).page pageSize ∉ pages := hin
    simp only [Store.request, haccess, hgoes hserved, if_neg hpage]
    refine ⟨s', rfl, by rwa [Store.outcome, if_neg hin], hrec.fault (hlen hin) hfault, ?_⟩
    rw [hserved.flat_eq, replay_cons (by simp)]
    rfl

/-- A process of `n` pages that has not exited. -/
structure Starting (s : VM) (p n : ℕ) : Prop where
  transparent : Transparent s
  lt : p < s.numProcs
  alive : (s.procs p).alive = true
  numPages : (s.procs p).space.numPages = n

theorem Starting.served {n : ℕ} {r : Request} {o : Outcome} (h : Starting s p n)
    (hserved : s.Served p r o s') : Starting s' p n := by
  refine ⟨hserved.transparent, ?_, ?_, ?_⟩
  · rw [hserved.kept.numProcs]
    exact h.lt
  · rw [hserved.kept.alive]
    exact h.alive
  · rw [hserved.kept.numPages]
    exact h.numPages

/-- The address is in the last `m` pages of an address space of `n` pages. -/
def InLast (m n addr : ℕ) : Prop := n * pageSize ≤ addr + m * pageSize ∧ addr < n * pageSize

theorem length_lt_of_not_mem {m n v : ℕ} (hnodup : pages.Nodup)
    (hpages : ∀ u ∈ pages, n ≤ u + m ∧ u < n) (hv : n ≤ v + m ∧ v < n) (hnot : v ∉ pages) :
    pages.length < m := by
  have hsub : v :: pages ⊆ List.range' (n - m) m := by
    intro u hu
    have hu : n ≤ u + m ∧ u < n := by
      rcases List.mem_cons.1 hu with rfl | hu
      · exact hv
      · exact hpages u hu
    rw [List.mem_range'_1]
    omega
  have hle := (List.subperm_of_subset (List.nodup_cons.2 ⟨hnot, hnodup⟩) hsub).length_le
  rw [List.length_cons, List.length_range'] at hle
  exact hle

/-- The events of the calls of a loop, the last one first, when `pages` are resident. -/
def events (p : ℕ) : List ℕ → List Store → List MemEvent
  | _, [] => []
  | pages, w :: ws =>
      events p (pages ++ [vpnOf w.addr]) ws ++ [⟨p, w.request, w.outcome pages⟩]

/-- It does not matter how often and in which order the pages are listed. -/
theorem events_congr {pages' : List ℕ} (h : ∀ v, v ∈ pages ↔ v ∈ pages') :
    events p pages ws = events p pages' ws := by
  induction ws generalizing pages pages' with
  | nil => rfl
  | cons w ws ih =>
      have hnext : ∀ v, v ∈ pages ++ [vpnOf w.addr] ↔ v ∈ pages' ++ [vpnOf w.addr] := by
        intro v
        rw [List.mem_append, List.mem_append, h v]
      rw [events, events, ih hnext, Store.outcome, Store.outcome, if_congr (h _) rfl rfl]

/-- The calls of a loop that stays in the last `m` pages. -/
theorem writeAll_spec {m n : ℕ} (h : Starting s p n) (hframes : m ≤ s.numPhysPages)
    (hrec : s.Recent p pages) (hnodup : pages.Nodup) (hpages : ∀ v ∈ pages, n ≤ v + m ∧ v < n)
    (hws : ∀ w ∈ ws, w.Aligned ∧ InLast m n w.addr.toNat) :
    ∃ s', writeAll stack p ws s = .ok (true, s') ∧ Starting s' p n ∧
      s'.numPhysPages = s.numPhysPages ∧
        s'.Recent p ((ws.map Store.put).foldl (touch pageSize) (s.flat p, pages)).2 ∧
          s'.flat p = ((ws.map Store.put).foldl (touch pageSize) (s.flat p, pages)).1 ∧
            s'.log = events p pages ws ++ s.log := by
  induction ws generalizing s pages with
  | nil => exact ⟨s, rfl, h, rfl, hrec, rfl, rfl⟩
  | cons w ws ih =>
      obtain ⟨haligned, hlow, hhigh⟩ := hws w List.mem_cons_self
      have hv : n ≤ vpnOf w.addr + m ∧ vpnOf w.addr < n := by
        rw [show pageSize = 128 from rfl] at hlow hhigh
        rw [vpnOf, show pageSize = 128 from rfl]
        omega
      obtain ⟨s₁, hwrite, hserved, hrec₁, hflat₁⟩ := writeMem_spec stack h.transparent hrec h.lt
        h.alive haligned (by rw [h.numPages]; exact hv.2)
        fun hnot => Nat.lt_of_lt_of_le (length_lt_of_not_mem hnodup hpages hv hnot) hframes
      have hnodup₁ : ([w.put].foldl (touch pageSize) (s.flat p, pages)).2.Nodup :=
        nodup_pages_touches hnodup
      have hmem₁ : ∀ u, u ∈ (touch pageSize (s.flat p, pages) w.put).2 ↔
          u ∈ pages ++ [vpnOf w.addr] := by
        intro u
        have hmem : u ∈ ([w.put].foldl (touch pageSize) (s.flat p, pages)).2 ↔ _ :=
          mem_pages_touches
        rw [List.foldl_cons, List.foldl_nil] at hmem
        rw [hmem, List.mem_append, List.mem_singleton]
        refine or_congr_right ⟨?_, ?_⟩
        · rintro ⟨w', hw', rfl⟩
          cases List.mem_singleton.1 hw'
          rfl
        · rintro rfl
          exact ⟨w.put, List.mem_singleton_self _, rfl⟩
      have hpages₁ : ∀ u ∈ (touch pageSize (s.flat p, pages) w.put).2, n ≤ u + m ∧ u < n := by
        intro u hu
        rcases List.mem_append.1 ((hmem₁ u).1 hu) with hu | hu
        · exact hpages u hu
        · cases List.mem_singleton.1 hu
          exact hv
      have hnum : s₁.numPhysPages = s.numPhysPages := hserved.kept.numPhysPages
      obtain ⟨s', hrun, hst, hnum', hrec', hflat', hlog'⟩ := ih (h.served hserved) (by rwa [hnum])
        hrec₁ hnodup₁ hpages₁ fun w' hw' => hws w' (List.mem_cons_of_mem _ hw')
      rw [hflat₁] at hrec' hflat'
      refine ⟨s', by simp only [writeAll, hwrite, hrun], hst, hnum'.trans hnum, hrec', hflat', ?_⟩
      rw [hlog', hserved.kept.log, events, List.append_assoc, events_congr hmem₁]
      rfl

/-! ## The layout -/

/-- The bytes that the strings take. -/
def extent : List (List Byte) → ℕ
  | [] => 0
  | temp :: argv => temp.length + 1 + extent argv

/-- The bytes that the strings, the pointers and the alignment take. -/
def blockSize (argv : List (List Byte)) : ℕ := (extent argv + argv.length * 4 + 3) / 4 * 4

/-- The stack pointer after `d` bytes. -/
def spAt (last : BitVec 32) (d : ℕ) : BitVec 32 := last - BitVec.ofNat 32 d

/-- The calls of the loop over the strings, when `d` bytes have been taken before. -/
def stringStores (last : BitVec 32) : ℕ → List (List Byte) → List Store
  | _, [] => []
  | d, temp :: argv =>
      byteStores (spAt last (d + (temp.length + 1))) temp ++
        stringStores last (d + (temp.length + 1)) argv

/-- The array of the pointers. -/
def pointers (last : BitVec 32) : ℕ → List (List Byte) → List (BitVec 32)
  | _, [] => []
  | d, temp :: argv =>
      spAt last (d + (temp.length + 1)) :: pointers last (d + (temp.length + 1)) argv

theorem spAt_zero (last : BitVec 32) : spAt last 0 = last := by
  simp [spAt]

theorem spAt_sub (last : BitVec 32) (d k : ℕ) :
    spAt last d - BitVec.ofNat 32 k = spAt last (d + k) := by
  unfold spAt
  bv_omega

theorem checkSP_spAt (last : BitVec 32) (d : ℕ) :
    checkSP (spAt last d) last = BitVec.ofNat 32 d := by
  unfold checkSP spAt
  bv_omega

theorem checkSP_ne {d : ℕ} (last : BitVec 32) (hpos : 0 < d) (hlt : d < 2 ^ 32) :
    checkSP (spAt last d) last ≠ 0 := by
  rw [checkSP_spAt]
  intro h0
  have := congrArg BitVec.toNat h0
  rw [BitVec.toNat_ofNat, Nat.mod_eq_of_lt hlt] at this
  exact Nat.ne_of_gt hpos this

theorem writeAll_append (ws ws' : List Store) :
    writeAll stack p (ws ++ ws') s =
      match writeAll stack p ws s with
      | .error e => .error e
      | .ok (false, s') => .ok (false, s')
      | .ok (true, s') => writeAll stack p ws' s' := by
  induction ws generalizing s with
  | nil => rfl
  | cons w ws ih =>
      rw [List.cons_append, writeAll, writeAll]
      split
      · rfl
      · rfl
      · exact ih

/-- The loop over the strings makes its calls one after the other. -/
theorem loadStrings_eq {last : BitVec 32} {argv : List (List Byte)} {d : ℕ}
    {arr : List (BitVec 32)} (hlt : d + extent argv < 2 ^ 32) :
    loadStrings stack p last argv (spAt last d) arr s =
      match writeAll stack p (stringStores last d argv) s with
      | .error e => .error e
      | .ok (false, s') => .ok (.exited, s')
      | .ok (true, s') => .ok
          (.goesOn (spAt last (d + extent argv), arr ++ pointers last d argv), s')
      := by
  induction argv generalizing d arr s with
  | nil =>
      simp [loadStrings, stringStores, writeAll, pointers, extent]
  | cons temp argv ih =>
      rw [extent, ← Nat.add_assoc] at hlt
      rw [loadStrings, stringStores, writeAll_append]
      simp only [spAt_sub]
      rw [if_neg (checkSP_ne last (by omega) (by omega))]
      split
      · rfl
      · rfl
      · rw [ih hlt, pointers, extent, ← Nat.add_assoc d (temp.length + 1), List.append_assoc]
        rfl

theorem toInt_spAt {e d : ℕ} (he : e ≤ 2 ^ 31) (hpos : 0 < d) (hd : d < 2 ^ 31 + e) :
    (spAt (BitVec.ofNat 32 e) d).toInt = (e : ℤ) - d := by
  unfold spAt
  rw [BitVec.toInt_sub, BitVec.toInt_ofNat', BitVec.toInt_ofNat', Int.bmod_sub_bmod,
    Int.sub_bmod_bmod]
  refine (Int.bmod_eq_iff (by decide)).2 ⟨?_, ?_, ?_⟩
  · omega
  · omega
  · rw [Int.sub_self]
    exact Int.dvd_zero _

theorem toNat_spAt {e d : ℕ} (he : e ≤ 2 ^ 31) (hd : d ≤ e) :
    (spAt (BitVec.ofNat 32 e) d).toNat = e - d := by
  unfold spAt
  rw [BitVec.toNat_sub, BitVec.toNat_ofNat, BitVec.toNat_ofNat]
  omega

/-- `sp -= (sp % 4)` rounds towards zero. -/
theorem toInt_sub_srem (sp : BitVec 32) :
    (sp - sp.srem 4).toInt = sp.toInt - sp.toInt.tmod 4 := by
  have hlow := BitVec.le_toInt sp
  have hhigh := BitVec.toInt_lt (x := sp)
  have hfour : (4 : BitVec 32).toInt = 4 := by decide
  have hmod : sp.toInt.tmod 4 = _ := Int.tmod_eq_emod
  rw [BitVec.toInt_sub, BitVec.toInt_srem, hfour]
  refine (Int.bmod_eq_iff (by decide)).2 ⟨?_, ?_, ?_⟩
  · split at hmod <;> omega
  · split at hmod <;> omega
  · rw [Int.sub_self]
    exact Int.dvd_zero _

/-- The stack pointer below the pointers, when it is not negative. -/
theorem sp_eq {e : ℕ} {argv : List (List Byte)} (hne : argv ≠ []) (he : e ≤ 2 ^ 31)
    (hfour : e % 4 = 0) (hfit : blockSize argv ≤ e) :
    spAt (BitVec.ofNat 32 e) (extent argv + argv.length * 4) -
        (spAt (BitVec.ofNat 32 e) (extent argv + argv.length * 4)).srem 4 =
      spAt (BitVec.ofNat 32 e) (blockSize argv) := by
  have hpos := List.length_pos_iff.2 hne
  refine BitVec.eq_of_toInt_eq ?_
  unfold blockSize at hfit ⊢
  rw [toInt_sub_srem, toInt_spAt he (by omega) (by omega), toInt_spAt he (by omega) (by omega),
    Int.tmod_eq_emod, if_pos (by omega)]
  omega

/-- The calls of `LoadArguments`, in an address space that ends at `e`. -/
def stores (e : ℕ) (argv : List (List Byte)) : List Store :=
  stringStores (BitVec.ofNat 32 e) 0 argv ++
    pointerStores (spAt (BitVec.ofNat 32 e) (blockSize argv)) (pointers (BitVec.ofNat 32 e) 0 argv)

/-- The registers that `LoadArguments` leaves. -/
def registers (e : ℕ) (argv : List (List Byte)) : Registers where
  stackReg := spAt (BitVec.ofNat 32 e) (blockSize argv) - 16
  r4 := BitVec.ofNat 32 argv.length
  r5 := spAt (BitVec.ofNat 32 e) (blockSize argv)

theorem blockSize_pos {argv : List (List Byte)} (h : argv ≠ []) : 0 < blockSize argv := by
  have := List.length_pos_iff.2 h
  unfold blockSize
  omega

theorem extent_lt_blockSize (argv : List (List Byte)) :
    extent argv + argv.length * 4 ≤ blockSize argv := by
  unfold blockSize
  omega

/-- `LoadArguments`, when the block does not reach below the address 0. -/
theorem loadArguments_eq {argv : List (List Byte)} (hne : argv ≠ []) (he : lastAddr s p ≤ 2 ^ 31)
    (hfit : blockSize argv ≤ lastAddr s p) :
    loadArguments stack p argv s =
      match writeAll stack p (stores (lastAddr s p) argv) s with
      | .error e => .error e
      | .ok (false, s') => .ok (.exited, s')
      | .ok (true, s') => .ok (.goesOn (registers (lastAddr s p) argv), s') := by
  have hfour : lastAddr s p % 4 = 0 := by
    rw [lastAddr, show pageSize = 128 from rfl]
    omega
  have hext := extent_lt_blockSize argv
  unfold loadArguments stores registers
  generalize lastAddr s p = e at *
  have hstrings : loadStrings stack p (BitVec.ofNat 32 e) argv (BitVec.ofNat 32 e) [] s = _ :=
    (congrArg (fun sp => loadStrings stack p (BitVec.ofNat 32 e) argv sp [] s)
      (spAt_zero _).symm).trans (loadStrings_eq stack (by omega))
  simp only
  rw [hstrings, writeAll_append]
  cases writeAll stack p (stringStores (BitVec.ofNat 32 e) 0 argv) s with
  | error f => rfl
  | ok r =>
      obtain ⟨b, s'⟩ := r
      cases b with
      | false => rfl
      | true =>
          simp only [Nat.zero_add, List.nil_append, spAt_sub, sp_eq hne he hfour hfit]
          rw [if_neg (checkSP_ne _ (blockSize_pos hne) (by omega))]

section Layout

variable {e d k : ℕ} {temp : List Byte} {argv pre rest : List (List Byte)}

theorem toNat_spAt_add (he : e ≤ 2 ^ 31) (hd : d ≤ e) (hk : k ≤ d) :
    (spAt (BitVec.ofNat 32 e) d + BitVec.ofNat 32 k).toNat = e - d + k := by
  rw [BitVec.toNat_add, toNat_spAt he hd, BitVec.toNat_ofNat]
  omega

theorem extent_append (pre rest : List (List Byte)) :
    extent (pre ++ rest) = extent pre + extent rest := by
  induction pre with
  | nil => simp [extent]
  | cons temp pre ih =>
      rw [List.cons_append, extent, extent, ih]
      omega

theorem stringStores_append (last : BitVec 32) (d : ℕ) (pre rest : List (List Byte)) :
    stringStores last d (pre ++ rest) =
      stringStores last d pre ++ stringStores last (d + extent pre) rest := by
  induction pre generalizing d with
  | nil => rfl
  | cons temp pre ih =>
      rw [List.cons_append, stringStores, stringStores, ih, extent, List.append_assoc,
        Nat.add_assoc d]

/-- The bytes of a string are stored from its first character up. -/
theorem mem_byteStores (he : e ≤ 2 ^ 31) (hd : d + (temp.length + 1) ≤ e) {a : ℕ} :
    (∃ w ∈ byteStores (spAt (BitVec.ofNat 32 e) (d + (temp.length + 1))) temp,
      w.addr.toNat = a) ↔ e - (d + (temp.length + 1)) ≤ a ∧ a < e - d := by
  constructor
  · rintro ⟨w, hw, rfl⟩
    obtain ⟨k, hk, rfl⟩ := List.mem_map.1 hw
    rw [List.mem_range] at hk
    simp only
    rw [toNat_spAt_add he hd (by omega)]
    omega
  · rintro ⟨hlow, hhigh⟩
    refine ⟨_, List.mem_map.2 ⟨a - (e - (d + (temp.length + 1))), ?_, rfl⟩, ?_⟩
    · rw [List.mem_range]
      omega
    · simp only
      rw [toNat_spAt_add he hd (by omega)]
      omega

/-- The strings take the bytes from `e - d` down. -/
theorem mem_stringStores (he : e ≤ 2 ^ 31) (hd : d + extent argv ≤ e) {a : ℕ} :
    (∃ w ∈ stringStores (BitVec.ofNat 32 e) d argv, w.addr.toNat = a) ↔
      e - (d + extent argv) ≤ a ∧ a < e - d := by
  induction argv generalizing d with
  | nil =>
      simp only [stringStores, List.not_mem_nil, false_and, exists_false, false_iff, extent]
      omega
  | cons temp argv ih =>
      rw [extent, ← Nat.add_assoc] at hd ⊢
      simp only [stringStores, List.mem_append, or_and_right, exists_or]
      rw [mem_byteStores he (by omega), ih hd]
      omega

theorem size_of_mem_stringStores {last : BitVec 32} {w : Store}
    (hw : w ∈ stringStores last d argv) : w.size = 1 := by
  induction argv generalizing d with
  | nil => cases hw
  | cons temp argv ih =>
      rcases List.mem_append.1 hw with hw | hw
      · obtain ⟨k, -, rfl⟩ := List.mem_map.1 hw
        rfl
      · exact ih hw

theorem length_pointers (last : BitVec 32) (d : ℕ) (argv : List (List Byte)) :
    (pointers last d argv).length = argv.length := by
  induction argv generalizing d with
  | nil => rfl
  | cons temp argv ih => rw [pointers, List.length_cons, List.length_cons, ih]

/-- The pointer to a string. -/
theorem getD_pointers (last : BitVec 32) (d : ℕ) (pre : List (List Byte)) (temp : List Byte)
    (rest : List (List Byte)) :
    (pointers last d (pre ++ temp :: rest)).getD pre.length 0 =
      spAt last (d + extent pre + (temp.length + 1)) := by
  induction pre generalizing d with
  | nil => rfl
  | cons t pre ih =>
      rw [List.cons_append, pointers, List.length_cons, List.getD_cons_succ, ih, extent,
        ← Nat.add_assoc d (t.length + 1)]

theorem not_misaligned_four {addr : BitVec 32} (h : addr.toNat % 4 = 0) : ¬ misaligned addr 4 := by
  rintro (⟨-, hne⟩ | ⟨hsize, -⟩)
  · refine hne (BitVec.eq_of_toNat_eq ?_)
    have hand := Nat.and_two_pow_sub_one_eq_mod addr.toNat 2
    rw [BitVec.toNat_and]
    exact hand.trans h
  · cases hsize

/-- The pointers are stored below the strings. -/
theorem mem_pointerStores (he : e ≤ 2 ^ 31) (hfit : blockSize argv ≤ e) {w : Store}
    (hw : w ∈ pointerStores (spAt (BitVec.ofNat 32 e) (blockSize argv))
      (pointers (BitVec.ofNat 32 e) 0 argv)) :
    ∃ i < argv.length, w.addr.toNat = e - blockSize argv + i * 4 ∧ w.size = 4 := by
  obtain ⟨i, hi, rfl⟩ := List.mem_map.1 hw
  rw [List.mem_range, length_pointers] at hi
  have hext := extent_lt_blockSize argv
  exact ⟨i, hi, toNat_spAt_add he hfit (by omega), rfl⟩

/-- The calls are aligned and stay inside the block. -/
theorem stores_inside (he : e ≤ 2 ^ 31) (hfour : e % 4 = 0) (hfit : blockSize argv ≤ e)
    {w : Store} (hw : w ∈ stores e argv) :
    w.Aligned ∧ e ≤ w.addr.toNat + blockSize argv ∧ w.addr.toNat + w.size ≤ e := by
  have hext := extent_lt_blockSize argv
  rcases List.mem_append.1 hw with hw | hw
  · have hsize := size_of_mem_stringStores hw
    obtain ⟨hlow, hhigh⟩ := (mem_stringStores he (by omega)).1 ⟨w, hw, rfl⟩
    refine ⟨⟨.inl hsize, ?_⟩, by omega, by omega⟩
    rw [misaligned, hsize]
    simp
  · obtain ⟨i, hi, haddr, hsize⟩ := mem_pointerStores he hfit hw
    have hblock : blockSize argv % 4 = 0 := by
      unfold blockSize
      omega
    refine ⟨⟨.inr (.inr hsize), ?_⟩, by omega, by omega⟩
    rw [hsize]
    exact not_misaligned_four (by omega)

theorem byteStores_apart (he : e ≤ 2 ^ 31) (hd : d ≤ e) (hlen : temp.length ≤ d) :
    ((byteStores (spAt (BitVec.ofNat 32 e) d) temp).map Store.put).Pairwise Put.Apart := by
  rw [byteStores, List.map_map, List.pairwise_map]
  refine (List.pairwise_lt_range).imp_of_mem ?_
  intro i j hi hj hlt
  rw [List.mem_range] at hi hj
  refine .inl ?_
  simp only [Function.comp_apply, Store.put]
  rw [toNat_spAt_add he hd (by omega), toNat_spAt_add he hd (by omega)]
  omega

theorem stringStores_apart (he : e ≤ 2 ^ 31) (hd : d + extent argv ≤ e) :
    ((stringStores (BitVec.ofNat 32 e) d argv).map Store.put).Pairwise Put.Apart := by
  induction argv generalizing d with
  | nil => exact .nil
  | cons temp argv ih =>
      rw [extent, ← Nat.add_assoc] at hd
      rw [stringStores, List.map_append, List.pairwise_append]
      refine ⟨byteStores_apart he (by omega) (by omega), ih hd, ?_⟩
      intro x hx y hy
      obtain ⟨w, hw, rfl⟩ := List.mem_map.1 hx
      obtain ⟨u, hu, rfl⟩ := List.mem_map.1 hy
      have hsize := size_of_mem_stringStores hu
      have hw := (mem_byteStores he (by omega)).1 ⟨w, hw, rfl⟩
      have hu := (mem_stringStores he hd).1 ⟨u, hu, rfl⟩
      refine .inr ?_
      simp only [Store.put]
      omega

/-- No two calls are for the same byte. -/
theorem stores_apart (he : e ≤ 2 ^ 31) (hfit : blockSize argv ≤ e) :
    ((stores e argv).map Store.put).Pairwise Put.Apart := by
  have hext := extent_lt_blockSize argv
  rw [stores, List.map_append, List.pairwise_append]
  refine ⟨stringStores_apart he (by omega), ?_, ?_⟩
  · rw [pointerStores, length_pointers, List.map_map, List.pairwise_map]
    refine (List.pairwise_lt_range).imp_of_mem ?_
    intro i j hi hj hlt
    rw [List.mem_range] at hi hj
    refine .inl ?_
    simp only [Function.comp_apply, Store.put]
    rw [toNat_spAt_add he hfit (by omega), toNat_spAt_add he hfit (by omega)]
    omega
  · intro x hx y hy
    obtain ⟨w, hw, rfl⟩ := List.mem_map.1 hx
    obtain ⟨u, hu, rfl⟩ := List.mem_map.1 hy
    have hw := (mem_stringStores he (by omega)).1 ⟨w, hw, rfl⟩
    obtain ⟨i, hi, haddr, hsize⟩ := mem_pointerStores he hfit hu
    refine .inr ?_
    simp only [Store.put]
    omega

/-! ## What is lost -/

/-- The memory of the process after the calls, with no page of it resident before. -/
def after (e : ℕ) (argv : List (List Byte)) (mem : ℕ → Byte) : ℕ → Byte :=
  (((stores e argv).map Store.put).foldl (touch pageSize) (mem, [])).1

variable {mem : ℕ → Byte} {a : ℕ}

/-- What a call stores is lost unless an earlier one was for the same page. -/
theorem after_apply (he : e ≤ 2 ^ 31) (hfit : blockSize argv ≤ e) {l r : List Store} {w : Store}
    (h : stores e argv = l ++ w :: r) {j : ℕ} (hj : j < w.size) :
    after e argv mem (w.addr.toNat + j) =
      if ∃ u ∈ l, u.addr.toNat / pageSize = w.addr.toNat / pageSize then
        w.value.extractLsb' (8 * j) 8
      else
        mem (w.addr.toNat + j) := by
  have hapart := stores_apart he hfit
  rw [h, List.map_append, List.map_cons, List.pairwise_append, List.pairwise_cons] at hapart
  obtain ⟨-, ⟨hr, -⟩, hl⟩ := hapart
  have hpage : (∃ u ∈ l, u.addr.toNat / pageSize = w.addr.toNat / pageSize) ↔
      w.put.page pageSize ∈ ([] : List ℕ) ∨
        ∃ u ∈ l.map Store.put, u.page pageSize = w.put.page pageSize := by
    simp [Put.page, Store.put]
  rw [after, h, List.map_append, List.map_cons]
  simp only [hpage]
  exact touches_apply (fun u hu => hl u hu _ List.mem_cons_self) (fun u hu => (hr u hu).symm) hj

theorem exists_split {β : Type*} (f : ℕ → β) {k n : ℕ} (hk : k < n) :
    ∃ r, (List.range n).map f = (List.range k).map f ++ f k :: r := by
  obtain ⟨m, rfl⟩ := Nat.exists_eq_add_of_lt hk
  refine ⟨((List.range m).map fun j => f (k + (j + 1))), ?_⟩
  rw [Nat.add_assoc, List.range_add, List.map_append, List.range_succ_eq_map]
  simp

theorem extractLsb_signExtend (b : Byte) : (b.signExtend 32).extractLsb' 0 8 = b := by
  revert b
  decide

/-- The pages that the strings are in. -/
theorem touches_strings (he : e ≤ 2 ^ 31) (hpages : e % pageSize = 0) (hd : extent argv ≤ e)
    (ha : a < e) :
    (∃ u ∈ stringStores (BitVec.ofNat 32 e) 0 argv, u.addr.toNat / pageSize = a / pageSize) ↔
      e - extent argv ≤ a / pageSize * pageSize + (pageSize - 1) ∧ 0 < extent argv := by
  have hmem : ∀ {b : ℕ}, (∃ w ∈ stringStores (BitVec.ofNat 32 e) 0 argv, w.addr.toNat = b) ↔
      e - (0 + extent argv) ≤ b ∧ b < e - 0 := mem_stringStores he (by omega)
  rw [show pageSize = 128 from rfl] at *
  constructor
  · rintro ⟨u, hu, hpage⟩
    have hrange := hmem.1 ⟨u, hu, rfl⟩
    omega
  · rintro ⟨hlow, hpos⟩
    -- the last address of the page
    obtain ⟨u, hu, htop⟩ := (hmem (b := a / 128 * 128 + 127)).2 (by omega)
    exact ⟨u, hu, by omega⟩

/-- A byte of a string is kept when its page holds a byte of an earlier string, or when it is
not the first byte of its string in this page. -/
theorem after_string (he : e ≤ 2 ^ 31) (hpages : e % pageSize = 0)
    (hfit : blockSize (pre ++ temp :: rest) ≤ e) (hk : k ≤ temp.length)
    (ha : a = e - (extent pre + (temp.length + 1)) + k) :
    after e (pre ++ temp :: rest) mem a =
      if e - extent pre ≤ a / pageSize * pageSize + (pageSize - 1) ∧ 0 < extent pre ∨
          (0 < k ∧ a % pageSize ≠ 0) then
        temp.getD k 0
      else
        mem a := by
  have hext := extent_lt_blockSize (pre ++ temp :: rest)
  rw [extent_append, extent] at hext
  obtain ⟨f, hf⟩ : ∃ f : ℕ → Store, f = fun k =>
    { addr := spAt (BitVec.ofNat 32 e) (0 + extent pre + (temp.length + 1)) + BitVec.ofNat 32 k
      size := 1
      value := (temp.getD k 0).signExtend 32 } := ⟨_, rfl⟩
  have haddr : ∀ j ≤ temp.length, (f j).addr.toNat =
      e - (extent pre + (temp.length + 1)) + j := by
    intro j hj
    rw [hf]
    simp only [Nat.zero_add]
    exact toNat_spAt_add he (by omega) (by omega)
  have hsize : (f k).size = 1 := by rw [hf]
  obtain ⟨r, hsplit⟩ := exists_split f (Nat.lt_succ_of_le hk)
  have hstores : stores e (pre ++ temp :: rest) =
      (stringStores (BitVec.ofNat 32 e) 0 pre ++ (List.range k).map f) ++ f k ::
        (r ++ (stringStores (BitVec.ofNat 32 e) (0 + extent pre + (temp.length + 1)) rest ++
          pointerStores (spAt (BitVec.ofNat 32 e) (blockSize (pre ++ temp :: rest)))
            (pointers (BitVec.ofNat 32 e) 0 (pre ++ temp :: rest)))) := by
    rw [stores, stringStores_append, stringStores, byteStores, ← hf, hsplit]
    simp only [List.append_assoc, List.cons_append]
  have hafter : after e (pre ++ temp :: rest) mem ((f k).addr.toNat + 0) = _ :=
    after_apply he hfit hstores (by omega)
  rw [Nat.add_zero, haddr k hk, ← ha] at hafter
  rw [hafter]
  refine if_congr ?_ ?_ rfl
  · simp only [List.mem_append, or_and_right, exists_or]
    have hbefore : (∃ u ∈ (List.range k).map f, u.addr.toNat / pageSize = a / pageSize) ↔
        0 < k ∧ a % pageSize ≠ 0 := by
      rw [show pageSize = 128 from rfl]
      constructor
      · rintro ⟨u, hu, hpage⟩
        obtain ⟨j, hj, rfl⟩ := List.mem_map.1 hu
        rw [List.mem_range] at hj
        rw [haddr j (by omega)] at hpage
        omega
      · rintro ⟨hpos, hmod⟩
        refine ⟨f (k - 1), List.mem_map.2 ⟨k - 1, List.mem_range.2 (by omega), rfl⟩, ?_⟩
        rw [haddr (k - 1) (by omega)]
        omega
    rw [touches_strings he hpages (by omega) (by omega), hbefore]
  · rw [hf]
    exact extractLsb_signExtend _

/-- A pointer is kept when its page holds a byte of a string, or when it is not the first
pointer in this page. -/
theorem after_pointer (he : e ≤ 2 ^ 31) (hpages : e % pageSize = 0) (hfit : blockSize argv ≤ e)
    {i j : ℕ} (hi : i < argv.length) (hj : j < 4) (ha : a = e - blockSize argv + i * 4) :
    after e argv mem (a + j) =
      if e - extent argv ≤ a / pageSize * pageSize + (pageSize - 1) ∧ 0 < extent argv ∨
          (0 < i ∧ a % pageSize ≠ 0) then
        ((pointers (BitVec.ofNat 32 e) 0 argv).getD i 0).extractLsb' (8 * j) 8
      else
        mem (a + j) := by
  have hext := extent_lt_blockSize argv
  have hblock : blockSize argv % 4 = 0 := by
    unfold blockSize
    omega
  obtain ⟨f, hf⟩ : ∃ f : ℕ → Store, f = fun i =>
    { addr := spAt (BitVec.ofNat 32 e) (blockSize argv) + BitVec.ofNat 32 (i * 4)
      size := 4
      value := (pointers (BitVec.ofNat 32 e) 0 argv).getD i 0 } := ⟨_, rfl⟩
  have haddr : ∀ i < argv.length, (f i).addr.toNat = e - blockSize argv + i * 4 := by
    intro i hi
    rw [hf]
    exact toNat_spAt_add he hfit (by omega)
  have hsize : (f i).size = 4 := by rw [hf]
  obtain ⟨r, hsplit⟩ := exists_split f hi
  have hstores : stores e argv =
      (stringStores (BitVec.ofNat 32 e) 0 argv ++ (List.range i).map f) ++ f i :: r := by
    rw [stores, pointerStores, length_pointers, ← hf, hsplit, List.append_assoc]
  have hafter : after e argv mem ((f i).addr.toNat + j) = _ :=
    after_apply he hfit hstores (by omega)
  rw [haddr i hi, ← ha] at hafter
  rw [hafter]
  refine if_congr ?_ (by rw [hf]) rfl
  simp only [List.mem_append, or_and_right, exists_or]
  have hbefore : (∃ u ∈ (List.range i).map f, u.addr.toNat / pageSize = a / pageSize) ↔
      0 < i ∧ a % pageSize ≠ 0 := by
    rw [show pageSize = 128 from rfl] at *
    constructor
    · rintro ⟨u, hu, hpage⟩
      obtain ⟨i', hi', rfl⟩ := List.mem_map.1 hu
      rw [List.mem_range] at hi'
      rw [haddr i' (by omega)] at hpage
      omega
    · rintro ⟨hpos, hmod⟩
      refine ⟨f (i - 1), List.mem_map.2 ⟨i - 1, List.mem_range.2 (by omega), rfl⟩, ?_⟩
      rw [haddr (i - 1) (by omega)]
      omega
  rw [touches_strings he hpages (by omega) (by omega), hbefore]

/-! ## When nothing is lost -/

/-- At the top of every page that the block reaches there is an empty argument: the arguments
before it take the pages above. -/
def Spared (argv : List (List Byte)) : Prop :=
  ∀ n, n * pageSize < blockSize argv →
    ∃ pre rest, argv = pre ++ [] :: rest ∧ extent pre = n * pageSize

/-- The pointers lead to places for the arguments that are apart, above the pointers themselves,
which start at `r5`, and below `e`. -/
structure Placed (e r5 : ℕ) (argv : List (List Byte)) (ptr : ℕ → BitVec 32) : Prop where
  above : ∀ i < argv.length, r5 + argv.length * 4 ≤ (ptr i).toNat
  inside : ∀ i < argv.length, (ptr i).toNat + ((argv.getD i []).length + 1) ≤ e
  apart : ∀ i < argv.length, ∀ j < argv.length, i ≠ j →
    (ptr i).toNat + ((argv.getD i []).length + 1) ≤ (ptr j).toNat ∨
      (ptr j).toNat + ((argv.getD j []).length + 1) ≤ (ptr i).toNat

/-- Every argument has its copy in `mem`. -/
structure Copied (mem : ℕ → Byte) (e r5 : ℕ) (argv : List (List Byte)) (ptr : ℕ → BitVec 32) :
    Prop where
  placed : Placed e r5 argv ptr
  pointer : ∀ i < argv.length, wordAt mem (r5 + i * 4) = ptr i
  byte : ∀ i < argv.length, ∀ k ≤ (argv.getD i []).length,
    mem ((ptr i).toNat + k) = (argv.getD i []).getD k 0

theorem eq_parts {i : ℕ} (hi : i < argv.length) :
    argv = argv.take i ++ argv.getD i [] :: argv.drop (i + 1) := by
  have hget : argv.getD i [] = argv[i] := by simp [List.getD_eq_getElem?_getD, hi]
  rw [hget, ← List.drop_eq_getElem_cons hi, List.take_append_drop]

theorem getD_parts (pre : List (List Byte)) (temp : List Byte) (rest : List (List Byte)) :
    (pre ++ temp :: rest).getD pre.length [] = temp := by
  simp [List.getD_eq_getElem?_getD]

/-- An argument and those before it take no more than those before a later one. -/
theorem extent_take_add_le {i j : ℕ} (hij : i < j) (hi : i < argv.length) :
    extent (argv.take i) + ((argv.getD i []).length + 1) ≤ extent (argv.take j) := by
  have htake : argv.take (i + 1) = argv.take i ++ [argv.getD i []] := by
    rw [List.take_succ_eq_append_getElem hi]
    simp [List.getD_eq_getElem?_getD, hi]
  obtain ⟨c, hc⟩ := List.take_prefix_take_left (l := argv) (show i + 1 ≤ j from hij)
  rw [← hc, htake, extent_append, extent_append, extent, extent]
  omega

/-- The argument at a depth. -/
theorem exists_argument {c : ℕ} (hc : c < extent argv) :
    ∃ pre temp rest, argv = pre ++ temp :: rest ∧ extent pre ≤ c ∧
      c < extent pre + (temp.length + 1) := by
  induction argv generalizing c with
  | nil => exact absurd hc (Nat.not_lt_zero c)
  | cons t argv ih =>
      rw [extent] at hc
      by_cases hlt : c < t.length + 1
      · exact ⟨[], t, argv, rfl, Nat.zero_le _, by rw [extent]; omega⟩
      · obtain ⟨pre, temp, rest, rfl, hlow, hhigh⟩ := ih (c := c - (t.length + 1)) (by omega)
        exact ⟨t :: pre, temp, rest, rfl, by rw [extent]; omega, by rw [extent]; omega⟩

/-- There is one argument at a depth. -/
theorem argument_unique {pre' rest' : List (List Byte)} {temp' : List Byte}
    (h : pre ++ temp :: rest = pre' ++ temp' :: rest') (hlow : extent pre ≤ extent pre')
    (hhigh : extent pre' < extent pre + (temp.length + 1)) : temp = temp' := by
  rcases List.append_eq_append_iff.1 h with ⟨c, rfl, hc⟩ | ⟨c, rfl, hc⟩
  · cases c with
    | nil => exact (List.cons.inj hc).1
    | cons t c =>
        obtain ⟨rfl, -⟩ := List.cons.inj hc
        rw [extent_append, extent] at hhigh
        omega
  · cases c with
    | nil => exact (List.cons.inj hc).1.symm
    | cons t c =>
        rw [extent_append, extent] at hlow
        omega

theorem wordAt_eq {v : BitVec 32} (h : ∀ j < 4, mem (a + j) = v.extractLsb' (8 * j) 8) :
    wordAt mem a = v := by
  rw [← Filesys.wordAt_bytesOf (fun _ => v) 0]
  refine Filesys.wordAt_congr ?_
  intro j hj
  rw [h j hj, Filesys.bytesOf, Nat.mul_zero, Nat.zero_add, Nat.mod_eq_of_lt hj]

/-- The word at a pointer, in a block that holds zeros before. -/
theorem after_word (he : e ≤ 2 ^ 31) (hpages : e % pageSize = 0) (hfit : blockSize argv ≤ e)
    (hzero : ∀ b, e ≤ b + blockSize argv → b < e → mem b = 0) {i : ℕ} (hi : i < argv.length)
    (ha : a = e - blockSize argv + i * 4) :
    wordAt (after e argv mem) a =
      if e - extent argv ≤ a / pageSize * pageSize + (pageSize - 1) ∧ 0 < extent argv ∨
          (0 < i ∧ a % pageSize ≠ 0) then
        (pointers (BitVec.ofNat 32 e) 0 argv).getD i 0
      else
        0 := by
  have hext := extent_lt_blockSize argv
  have hbytes : ∀ j < 4, after e argv mem (a + j) = _ :=
    fun j hj => after_pointer he hpages hfit hi hj ha
  split
  · rename_i hkept
    refine wordAt_eq ?_
    intro j hj
    rw [hbytes j hj, if_pos hkept]
  · rename_i hlost
    refine wordAt_eq ?_
    intro j hj
    rw [hbytes j hj, if_neg hlost, hzero (a + j) (by omega) (by omega)]
    simp

/-- The pointer to an argument. -/
theorem toNat_pointer (he : e ≤ 2 ^ 31) (hfit : blockSize argv ≤ e) {i : ℕ}
    (hi : i < argv.length) :
    ((pointers (BitVec.ofNat 32 e) 0 argv).getD i 0).toNat =
        e - (extent (argv.take i) + ((argv.getD i []).length + 1)) ∧
      extent (argv.take i) + ((argv.getD i []).length + 1) ≤ extent argv := by
  have hext := extent_lt_blockSize argv
  have hle := extent_take_add_le hi hi
  rw [List.take_length] at hle
  refine ⟨?_, hle⟩
  have hptr := getD_pointers (BitVec.ofNat 32 e) 0 (argv.take i) (argv.getD i [])
    (argv.drop (i + 1))
  rw [← eq_parts hi, List.length_take, Nat.min_eq_left (Nat.le_of_lt hi), Nat.zero_add] at hptr
  rw [hptr, toNat_spAt he (by omega)]

theorem placed (he : e ≤ 2 ^ 31) (hfit : blockSize argv ≤ e) :
    Placed e (e - blockSize argv) argv fun i => (pointers (BitVec.ofNat 32 e) 0 argv).getD i 0 := by
  have hext := extent_lt_blockSize argv
  refine ⟨?_, ?_, ?_⟩
  · intro i hi
    obtain ⟨hptr, hle⟩ := toNat_pointer he hfit hi
    rw [hptr]
    omega
  · intro i hi
    obtain ⟨hptr, hle⟩ := toNat_pointer he hfit hi
    rw [hptr]
    omega
  · intro i hi j hj hij
    obtain ⟨hptri, hlei⟩ := toNat_pointer he hfit hi
    obtain ⟨hptrj, hlej⟩ := toNat_pointer he hfit hj
    rw [hptri, hptrj]
    rcases Nat.lt_or_gt_of_ne hij with hlt | hgt
    · have := extent_take_add_le hlt hi
      omega
    · have := extent_take_add_le hgt hj
      omega

theorem Spared.kept_string (h : Spared (pre ++ temp :: rest)) (hpages : e % pageSize = 0)
    (hfit : blockSize (pre ++ temp :: rest) ≤ e) (hk : k ≤ temp.length)
    (ha : a = e - (extent pre + (temp.length + 1)) + k)
    (hlost : ¬ (e - extent pre ≤ a / pageSize * pageSize + (pageSize - 1) ∧ 0 < extent pre ∨
      (0 < k ∧ a % pageSize ≠ 0))) : temp = [] := by
  have hext := extent_lt_blockSize (pre ++ temp :: rest)
  rw [extent_append, extent] at hext
  have hsmall : (extent pre + temp.length - k) / pageSize * pageSize <
      blockSize (pre ++ temp :: rest) := by
    rw [show pageSize = 128 from rfl]
    omega
  obtain ⟨pre', rest', heq, hpre'⟩ := h _ hsmall
  refine argument_unique heq ?_ ?_ <;> rw [hpre'] <;>
    rw [show pageSize = 128 from rfl] at * <;> omega

/-- The copies are there when no page loses anything. -/
theorem Spared.copied (h : Spared argv) (he : e ≤ 2 ^ 31) (hpages : e % pageSize = 0)
    (hfit : blockSize argv ≤ e) (hzero : ∀ b, e ≤ b + blockSize argv → b < e → mem b = 0) :
    Copied (after e argv mem) e (e - blockSize argv) argv
      fun i => (pointers (BitVec.ofNat 32 e) 0 argv).getD i 0 := by
  have hext := extent_lt_blockSize argv
  refine ⟨placed he hfit, ?_, ?_⟩
  · intro i hi
    rw [after_word he hpages hfit hzero hi rfl, if_pos]
    have hsmall : (blockSize argv - i * 4 - 1) / pageSize * pageSize < blockSize argv := by
      rw [show pageSize = 128 from rfl]
      omega
    obtain ⟨pre, rest, heq, hpre⟩ := h _ hsmall
    have hall := congrArg extent heq
    rw [extent_append, extent, hpre] at hall
    rw [show pageSize = 128 from rfl] at *
    left
    omega
  · intro i hi k hk
    obtain ⟨hptr, hle⟩ := toNat_pointer he hfit hi
    have heq := eq_parts hi
    have hbyte : after e _ mem _ = _ := after_string he hpages (heq ▸ hfit) hk rfl
    rw [← heq] at hbyte
    rw [hptr, hbyte]
    split
    · rfl
    · rename_i hlost
      -- a byte that is lost is the end of an empty argument
      have hempty : argv.getD i [] = [] := (heq ▸ h).kept_string hpages (heq ▸ hfit) hk rfl hlost
      rw [hzero _ (by omega) (by omega), hempty]
      rfl

/-- A pointer of the array leads to its argument. -/
theorem Copied.pointer_eq {ptr : ℕ → BitVec 32}
    (h : Copied (after e argv mem) e (e - blockSize argv) argv ptr) (he : e ≤ 2 ^ 31)
    (hpages : e % pageSize = 0) (hfit : blockSize argv ≤ e)
    (hzero : ∀ b, e ≤ b + blockSize argv → b < e → mem b = 0) {i : ℕ} (hi : i < argv.length) :
    ptr i = (pointers (BitVec.ofNat 32 e) 0 argv).getD i 0 ∧
      (e - extent argv ≤ (e - blockSize argv + i * 4) / pageSize * pageSize + (pageSize - 1) ∧
          0 < extent argv ∨
        (0 < i ∧ (e - blockSize argv + i * 4) % pageSize ≠ 0)) := by
  have hword := after_word he hpages hfit hzero hi rfl
  rw [h.pointer i hi] at hword
  split at hword
  · rename_i hkept
    exact ⟨hword, hkept⟩
  · have habove := h.placed.above i hi
    rw [hword] at habove
    have h0 : (0 : BitVec 32).toNat = 0 := rfl
    omega

/-- Nothing is lost when the copies are there. -/
theorem Copied.spared {ptr : ℕ → BitVec 32}
    (h : Copied (after e argv mem) e (e - blockSize argv) argv ptr) (he : e ≤ 2 ^ 31)
    (hpages : e % pageSize = 0) (hfit : blockSize argv ≤ e)
    (hzero : ∀ b, e ≤ b + blockSize argv → b < e → mem b = 0)
    (hchars : ∀ temp ∈ argv, (0 : Byte) ∉ temp) : Spared argv := by
  have hext := extent_lt_blockSize argv
  intro n hn
  by_cases hstrings : n * pageSize < extent argv
  · obtain ⟨pre, temp, rest, rfl, hlow, hhigh⟩ := exists_argument hstrings
    have hi : pre.length < (pre ++ temp :: rest).length := by simp
    have hall := extent_append pre (temp :: rest)
    rw [extent] at hall
    -- the byte that is stored first in the page
    obtain ⟨k, hk⟩ : ∃ k, k = extent pre + temp.length -
      min (extent pre + temp.length) (n * pageSize + (pageSize - 1)) := ⟨_, rfl⟩
    obtain ⟨a, ha⟩ : ∃ a, a = e - (extent pre + (temp.length + 1)) + k := ⟨_, rfl⟩
    have hlost : after e (pre ++ temp :: rest) mem a = mem a := by
      rw [after_string he hpages hfit (by omega) ha, if_neg]
      rw [show pageSize = 128 from rfl] at *
      omega
    rw [hzero a (by omega) (by omega)] at hlost
    obtain ⟨hptr, -⟩ := h.pointer_eq he hpages hfit hzero hi
    have hbyte := h.byte _ hi k (by rw [getD_parts]; omega)
    obtain ⟨hnat, -⟩ := toNat_pointer he hfit hi
    rw [hptr, hnat, List.take_left, getD_parts, ← ha, hlost] at hbyte
    have hend : k = temp.length := by
      by_contra hne
      have hlt : k < temp.length := by omega
      refine hchars temp (by simp) ?_
      have hget : temp.getD k 0 = temp[k] := by simp [List.getD_eq_getElem?_getD, hlt]
      rw [hbyte, hget]
      exact List.getElem_mem hlt
    have hlen : temp.length = 0 := by
      rw [show pageSize = 128 from rfl] at *
      omega
    cases List.length_eq_zero_iff.1 hlen
    refine ⟨pre, rest, rfl, ?_⟩
    rw [show pageSize = 128 from rfl] at *
    omega
  · -- the first pointer in the page would be lost
    have hblock : blockSize argv = (extent argv + argv.length * 4 + 3) / 4 * 4 := rfl
    obtain ⟨i, hi⟩ : ∃ i, i = (blockSize argv - (n + 1) * pageSize) / 4 := ⟨_, rfl⟩
    have hlt : i < argv.length := by
      rw [show pageSize = 128 from rfl] at *
      omega
    obtain ⟨-, hkept⟩ := h.pointer_eq he hpages hfit hzero hlt
    rw [show pageSize = 128 from rfl] at *
    omega

end Layout

/-! ## What the process finds -/

/-- The process reads `v` at the address: an instruction that reads is made again after a page
fault. -/
def Reads (s : VM) (p : ℕ) (addr : BitVec 32) (size : ℕ) (v : BitVec 32) : Prop :=
  ∀ stack, ∃ s', s.readMemTwice false stack p size addr = .ok (.got v, s')

variable {n : ℕ} {addr v : BitVec 32} {size : ℕ}

theorem readMem_of_valid (h : Starting s p n) (hsize : Sized size) (halign : ¬ misaligned addr size)
    (hv : vpnOf addr < n) (hvalid : (s.pte p (vpnOf addr)).valid = true) :
    ∃ s' value, s.readMem false stack p size addr = .ok (.got value, s') ∧
      load (s.flat p) addr.toNat size = .ok value ∧
        s.Served p (.readMem addr size) (.value value) s' ∧ SameFrames s s' := by
  obtain ⟨s', value, haccess, hload, hserved, hsame⟩ :=
    @Transparent.access_readMem s p h.transparent addr
    size (stack s.log.length) h.lt hsize halign (by rwa [h.numPages]) hvalid
  have hlog : s'.log = ⟨p, .readMem addr size, .value value⟩ :: s.log := hserved.kept.log
  exact ⟨s', value, by simp only [readMem, haccess, hlog], hload, hserved, hsame⟩

theorem readMem_of_invalid (h : Starting s p n) (halign : ¬ misaligned addr size)
    (hv : vpnOf addr < n) (hvalid : (s.pte p (vpnOf addr)).valid = false) :
    ∃ s', s.readMem false stack p size addr = .ok (.refused, s') ∧
      s.Served p (.readMem addr size) .pageFault s' := by
  obtain ⟨s', haccess, hserved, -⟩ := @Transparent.access_pageFault s p h.transparent
    (.readMem addr size) (stack s.log.length) h.lt halign (by rwa [h.numPages]) hvalid
  have hlog : s'.log = ⟨p, .readMem addr size, .pageFault⟩ :: s.log := hserved.kept.log
  exact ⟨s', by simp only [readMem, haccess, hlog], hserved⟩

/-- A process reads its flat memory. -/
theorem reads_iff (h : Starting s p n) (hsize : Sized size) (halign : ¬ misaligned addr size)
    (hv : vpnOf addr < n) :
    Reads s p addr size v ↔ load (s.flat p) addr.toNat size = .ok v := by
  have hread : ∀ stack, ∃ s' value, s.readMemTwice false stack p size addr = .ok (.got value, s') ∧
      load (s.flat p) addr.toNat size = .ok value := by
    intro stack
    cases hvalid : (s.pte p (vpnOf addr)).valid with
    | true =>
        obtain ⟨s', value, hread, hload, -⟩ := readMem_of_valid stack h hsize halign hv hvalid
        exact ⟨s', value, by simp only [readMemTwice, hread], hload⟩
    | false =>
        obtain ⟨s₁, hfirst, hserved⟩ := readMem_of_invalid stack h halign hv hvalid
        obtain ⟨s', value, hread, hload, -⟩ :=
          readMem_of_valid stack (h.served hserved) hsize halign hv
          (hserved.transparent.reissue _ _ hserved.kept.log rfl)
        rw [hserved.flat_eq, replay_cons (by simp)] at hload
        exact ⟨s', value, by simp only [readMemTwice, hfirst, hread], hload⟩
  constructor
  · intro hreads
    obtain ⟨s', hs'⟩ := hreads fun _ _ => 0
    obtain ⟨s'', value, hs'', hload⟩ := hread fun _ _ => 0
    rw [hs'] at hs''
    cases hs''
    exact hload
  · intro hload stack
    obtain ⟨s', value, hs', hload'⟩ := hread stack
    rw [hload] at hload'
    cases hload'
    exact ⟨s', hs'⟩

/-- The arguments are there as they were given. -/
structure Intact (s : VM) (p : ℕ) (argv : List (List Byte)) (regs : Registers) : Prop where
  argc : regs.r4 = BitVec.ofNat 32 argv.length
  aligned : regs.r5.toNat % 4 = 0
  stackReg : regs.stackReg = regs.r5 - 16
  copies : ∃ ptr : ℕ → BitVec 32, Placed (lastAddr s p) regs.r5.toNat argv ptr ∧
    (∀ i < argv.length, Reads s p (regs.r5 + BitVec.ofNat 32 (i * 4)) 4 (ptr i)) ∧
      ∀ i < argv.length, ∀ k ≤ (argv.getD i []).length,
        Reads s p (ptr i + BitVec.ofNat 32 k) 1 (((argv.getD i []).getD k 0).signExtend 32)

variable {argv : List (List Byte)}

theorem reads_byte_iff (h : Starting s p n) {b : Byte} (hv : addr.toNat < n * pageSize) :
    Reads s p addr 1 (b.signExtend 32) ↔ s.flat p addr.toNat = b := by
  have hinj : Function.Injective fun b : Byte => b.signExtend 32 := by
    intro b c hbc
    rw [← extractLsb_signExtend b, ← extractLsb_signExtend c]
    exact congrArg (BitVec.extractLsb' 0 8) hbc
  rw [reads_iff h (.inl rfl) (by simp [misaligned]) (vpnOf_lt_iff.2 hv)]
  constructor
  · intro hload
    exact hinj (Except.ok.inj hload)
  · rintro rfl
    rfl

theorem reads_word_iff (h : Starting s p n) (hfour : addr.toNat % 4 = 0)
    (hv : addr.toNat < n * pageSize) :
    Reads s p addr 4 v ↔ wordAt (s.flat p) addr.toNat = v := by
  rw [reads_iff h (.inr (.inr rfl)) (not_misaligned_four hfour) (vpnOf_lt_iff.2 hv)]
  constructor
  · intro hload
    exact Except.ok.inj hload
  · rintro rfl
    rfl

/-- What the process finds is what its flat memory holds. -/
theorem intact_iff (h : Starting s p n) (he : n * pageSize ≤ 2 ^ 31)
    (hfit : blockSize argv ≤ n * pageSize) :
    Intact s p argv (registers (n * pageSize) argv) ↔
      ∃ ptr, Copied (s.flat p) (n * pageSize) (n * pageSize - blockSize argv) argv ptr := by
  have hext := extent_lt_blockSize argv
  have hlast : lastAddr s p = n * pageSize := by rw [lastAddr, h.numPages]
  have hfour : (n * pageSize - blockSize argv) % 4 = 0 := by
    rw [show pageSize = 128 from rfl] at *
    unfold blockSize
    omega
  have hr5 : (registers (n * pageSize) argv).r5.toNat = n * pageSize - blockSize argv :=
    toNat_spAt he hfit
  have hword : ∀ i < argv.length, ∀ v,
      Reads s p ((registers (n * pageSize) argv).r5 + BitVec.ofNat 32 (i * 4)) 4 v ↔
        wordAt (s.flat p) (n * pageSize - blockSize argv + i * 4) = v := by
    intro i hi v
    have haddr : ((registers (n * pageSize) argv).r5 + BitVec.ofNat 32 (i * 4)).toNat =
        n * pageSize - blockSize argv + i * 4 := toNat_spAt_add he hfit (by omega)
    rw [reads_word_iff h (by omega) (by omega), haddr]
  have hbyte : ∀ {ptr : ℕ → BitVec 32},
      Placed (n * pageSize) (n * pageSize - blockSize argv) argv ptr →
        ∀ i < argv.length, ∀ k ≤ (argv.getD i []).length, ∀ b : Byte,
          Reads s p (ptr i + BitVec.ofNat 32 k) 1 (b.signExtend 32) ↔
            s.flat p ((ptr i).toNat + k) = b := by
    intro ptr hplaced i hi k hk b
    have hinside := hplaced.inside i hi
    have haddr : (ptr i + BitVec.ofNat 32 k).toNat = (ptr i).toNat + k := by
      rw [BitVec.toNat_add, BitVec.toNat_ofNat]
      omega
    rw [reads_byte_iff h (by omega), haddr]
  constructor
  · rintro ⟨-, -, -, ptr, hplaced, hpointers, hbytes⟩
    rw [hlast, hr5] at hplaced
    refine ⟨ptr, hplaced, ?_, ?_⟩
    · intro i hi
      exact (hword i hi _).1 (hpointers i hi)
    · intro i hi k hk
      exact (hbyte hplaced i hi k hk _).1 (hbytes i hi k hk)
  · rintro ⟨ptr, hplaced, hpointers, hbytes⟩
    refine ⟨rfl, by rw [hr5]; exact hfour, rfl, ptr, by rwa [hlast, hr5], ?_, ?_⟩
    · intro i hi
      exact (hword i hi _).2 (hpointers i hi)
    · intro i hi k hk
      exact (hbyte hplaced i hi k hk _).2 (hbytes i hi k hk)

/-- The segments lie where their sizes make room for them, below the stack. -/
def Contained (executable : File) : Prop :=
  ∀ a, executable.header.code.Covers a ∨ executable.header.initData.Covers a →
    a < executable.extent

/-- A process that has been started and has not made a request. No page of it is resident. -/
structure Fresh (s : VM) (p : ℕ) : Prop where
  running : s.Running p
  invalid : ∀ v, (s.pte p v).valid = false
  log : ∀ e ∈ s.log, e.process ≠ p

/-- A process that `Exec2` has just started. -/
theorem fresh_exec (h : Transparent s) {executable : File} {stack : ℕ → Byte}
    {words : ℕ → BitVec 32} {created : Bool}
    (hs : s.exec executable stack words created = .ok s') (hnum : s'.numProcs = s.numProcs + 1) :
    Fresh s' s.numProcs ∧ (s'.procs s.numProcs).space.currentExecutable = executable := by
  rcases h.sound.tables.exec executable stack words created with
    ⟨t, heq, -⟩ | ⟨space, pages, i, t, t', heq, hinit, -⟩
  · rw [heq] at hs
    cases hs
    exact absurd hnum (Nat.ne_of_lt (Nat.lt_succ_self _))
  · rw [heq] at hs
    cases hs
    have hspace := (initialize_eq hinit).2
    have hlt : s.numProcs < (s.started space pages i t t').numProcs := Nat.lt_succ_self _
    have halive : ((s.started space pages i t t').procs s.numProcs).alive = true := by
      simp [started]
    refine ⟨⟨⟨hlt, halive⟩, ?_, ?_⟩, by simp [started, hspace]⟩
    · intro v
      simp [pte, started, hspace, TranslationEntry.initial]
    · intro e he
      exact Nat.ne_of_lt (h.log_lt e he)

/-- The end of the address space of a new process. -/
theorem Fresh.lastAddr_range (hfresh : Fresh s p) (h : Transparent s) :
    1536 ≤ lastAddr s p ∧ lastAddr s p ≤ 2 ^ 31 ∧ lastAddr s p % 128 = 0 := by
  have hroom : _ ≤ lastAddr s p := h.programs.room p hfresh.running.1
  have harg : argumentSize.toNat = 512 := rfl
  have hstack : userStackSize.toNat = 1024 := rfl
  exact ⟨by omega, h.programs.range p hfresh.running.1, Nat.mul_mod_left _ _⟩

theorem Fresh.flat_eq (h : Fresh s p) : s.flat p = (s.procs p).space.currentExecutable.image :=
  replay_of_not_mem h.log

/-- There is nothing above the segments. -/
theorem image_eq_zero {executable : File} (h : Contained executable) {a : ℕ}
    (ha : executable.extent ≤ a) : executable.image a = 0 := by
  have hcode : ¬ executable.header.code.Covers a := fun hin =>
    absurd (h a (.inl hin)) (Nat.not_lt.2 ha)
  have hdata : ¬ executable.header.initData.Covers a := fun hin =>
    absurd (h a (.inr hin)) (Nat.not_lt.2 ha)
  simp only [File.image, if_neg hcode, if_neg hdata]

/-- `LoadArguments` in a new process whose arguments fit: it goes on, and its memory is what the
calls that are not the first for their page leave. -/
theorem loadArguments_spec (h : Transparent s) (hframes : 4 ≤ s.numPhysPages) (hfresh : Fresh s p)
    (hne : argv ≠ []) (hfit : blockSize argv ≤ argumentSize.toNat) :
    ∃ s', loadArguments stack p argv s = .ok (.goesOn (registers (lastAddr s p) argv), s') ∧
      Starting s' p (s.procs p).space.numPages ∧
        s'.flat p = after (lastAddr s p) argv (s.procs p).space.currentExecutable.image := by
  have hrange : lastAddr s p ≤ 2 ^ 31 := h.programs.range p hfresh.running.1
  have hroom : _ ≤ lastAddr s p := h.programs.room p hfresh.running.1
  have hfit' : blockSize argv ≤ lastAddr s p := by omega
  have hpages : lastAddr s p % 4 = 0 := by
    rw [lastAddr, show pageSize = 128 from rfl]
    omega
  have hstart : Starting s p (s.procs p).space.numPages :=
    ⟨h, hfresh.running.1, hfresh.running.2, rfl⟩
  have hws : ∀ w ∈ stores (lastAddr s p) argv,
      w.Aligned ∧ InLast 4 (s.procs p).space.numPages w.addr.toNat := by
    intro w hw
    obtain ⟨haligned, hlow, hhigh⟩ := stores_inside hrange hpages hfit' hw
    have hsize : 0 < w.size := by
      rcases haligned.1 with hs | hs | hs <;> omega
    have harea : argumentSize.toNat = 4 * pageSize := by decide
    unfold lastAddr at hlow hhigh
    exact ⟨haligned, by omega, by omega⟩
  obtain ⟨s', hwrite, hst, -, -, hflat, -⟩ := writeAll_spec stack hstart hframes
    (recent_nil h.sound hfresh.invalid) .nil (fun v hv => by cases hv) hws
  refine ⟨s', ?_, hst, ?_⟩
  · rw [loadArguments_eq stack hne hrange hfit', hwrite]
  · rw [hflat, hfresh.flat_eq]
    rfl

/-- What the process finds of its arguments. -/
theorem Fresh.intact_iff_spared (h : Transparent s) (hframes : 4 ≤ s.numPhysPages)
    (hfresh : Fresh s p) (hexe : Contained (s.procs p).space.currentExecutable) (hne : argv ≠ [])
    (hchars : ∀ temp ∈ argv, (0 : Byte) ∉ temp) (hfit : blockSize argv ≤ argumentSize.toNat) :
    ∃ regs s', loadArguments stack p argv s = .ok (.goesOn regs, s') ∧
      (Intact s' p argv regs ↔ Spared argv) := by
  have hrange : lastAddr s p ≤ 2 ^ 31 := h.programs.range p hfresh.running.1
  have hroom : _ ≤ lastAddr s p := h.programs.room p hfresh.running.1
  obtain ⟨s', hload, hst, hflat⟩ := loadArguments_spec stack h hframes hfresh hne hfit
  have hzero : ∀ b, lastAddr s p ≤ b + blockSize argv → b < lastAddr s p →
      (s.procs p).space.currentExecutable.image b = 0 := by
    intro b hlow _
    exact image_eq_zero hexe (by omega)
  have hpages : lastAddr s p % pageSize = 0 := Nat.mul_mod_left _ _
  refine ⟨_, s', hload, ?_⟩
  rw [lastAddr, intact_iff hst hrange (by unfold lastAddr at hroom; omega), hflat]
  constructor
  · rintro ⟨ptr, hcopied⟩
    exact hcopied.spared hrange hpages (by omega) hzero hchars
  · intro hspared
    exact ⟨_, hspared.copied hrange hpages (by omega) hzero⟩

/-- The arguments arrive intact exactly when an empty argument stands at the top of every page
that they reach: whatever processes run, the first call of `WriteMem` for a page of the new process
only brings the page in. -/
theorem arguments_intact_iff {numPhysPages : ℕ} (hn : 4 ≤ numPhysPages) {maxProcess : ℕ}
    {words : ℕ → BitVec 32} {s₀ s : VM} {ops : List Op} (hops : ∀ op ∈ ops, op.WellFormed)
    (h₀ : boot numPhysPages maxProcess words = .ok s₀)
    (hrun : runFrom (VM.step false) s₀ ops = .ok s) {p : ℕ} (hfresh : Fresh s p)
    (hexe : Contained (s.procs p).space.currentExecutable) {argv : List (List Byte)}
    (hne : argv ≠ []) (hchars : ∀ temp ∈ argv, (0 : Byte) ∉ temp)
    (hfit : blockSize argv ≤ argumentSize.toNat) (stack : ℕ → ℕ → Byte) :
    ∃ regs s', loadArguments stack p argv s = .ok (.goesOn regs, s') ∧
      (Intact s' p argv regs ↔ Spared argv) := by
  obtain ⟨htrans, hphys⟩ := transparent_run (by omega) h₀ hops hrun
  exact hfresh.intact_iff_spared stack htrans (by rwa [hphys]) hexe hne hchars hfit

theorem sevenProgram_contained : Contained sevenProgram := by
  intro a ha
  have hheader : sevenProgram.header.code.virtualAddr.toNat = 0 ∧
      sevenProgram.header.initData.virtualAddr.toNat = 0 := by decide
  unfold Segment.Covers at ha
  rw [hheader.1, hheader.2] at ha
  unfold File.extent
  omega

theorem sevenProgram_wellFormed :
    ∀ op ∈ [Op.exec sevenProgram (fun _ => 0) (fun _ => 0) true], op.WellFormed := by
  intro op hop
  cases List.mem_singleton.1 hop
  exact sevenProgram_loadable

/-- The first process is started. -/
theorem sevenProgram_fresh :
    ∃ s₀ s, boot 32 50 (fun _ => 0) = .ok s₀ ∧
      runFrom (VM.step false) s₀ [.exec sevenProgram (fun _ => 0) (fun _ => 0) true] = .ok s ∧
        Transparent s ∧ s.numPhysPages = 32 ∧ Fresh s 0 ∧
          (s.procs 0).space.currentExecutable = sevenProgram := by
  obtain ⟨s₀, h₀⟩ : ∃ s₀, boot 32 50 (fun _ => 0) = .ok s₀ := ⟨_, rfl⟩
  have hprocs : s₀.numProcs = 0 := by
    cases h₀
    rfl
  have hpass : passes (VM.step false) s₀ [.exec sevenProgram (fun _ => 0) (fun _ => 0) true]
      (fun s => s.numProcs == 1) = true := by
    cases h₀
    decide +kernel
  obtain ⟨s, hs, hone⟩ := runFrom_of_passes hpass
  replace hone : s.numProcs = 1 := by simpa using hone
  obtain ⟨htrans, hphys⟩ := transparent_run (by decide) h₀ sevenProgram_wellFormed hs
  obtain ⟨htrans₀, -⟩ := transparent_run (by decide) h₀ (by simp) (runFrom_nil (VM.step false) s₀)
  have hexec : s₀.exec sevenProgram (fun _ => 0) (fun _ => 0) true = .ok s := by
    obtain ⟨s₁, hs₁, hnil⟩ := (runFrom_cons_ok _ _ _ _ _).1 hs
    cases hnil
    exact hs₁
  have hfresh := fresh_exec htrans₀ hexec (by rw [hone, hprocs])
  rw [hprocs] at hfresh
  exact ⟨s₀, s, h₀, hs, htrans, hphys, hfresh⟩

/-- An empty string and `hi`: the page is brought in by the call for the empty string. -/
theorem arguments_intact_hi :
    ∃ s₀ s regs s', boot 32 50 (fun _ => 0) = .ok s₀ ∧
      runFrom (VM.step false) s₀ [.exec sevenProgram (fun _ => 0) (fun _ => 0) true] = .ok s ∧
        loadArguments (fun _ _ => 0) 0 [[], [104, 105]] s = .ok (.goesOn regs, s') ∧
          Intact s' 0 [[], [104, 105]] regs := by
  obtain ⟨s₀, s, h₀, hs, -, -, hfresh, hexe⟩ := sevenProgram_fresh
  have hcontained : Contained (s.procs 0).space.currentExecutable := by
    rw [hexe]
    exact sevenProgram_contained
  obtain ⟨regs, s', hload, hiff⟩ : ∃ regs s',
      loadArguments (fun _ _ => 0) 0 [[], [104, 105]] s = .ok (.goesOn regs, s') ∧
        (Intact s' 0 [[], [104, 105]] regs ↔ Spared [[], [104, 105]]) :=
    arguments_intact_iff (by decide) sevenProgram_wellFormed h₀ hs hfresh hcontained (by decide)
      (by decide) (by decide) fun _ _ => 0
  refine ⟨s₀, s, regs, s', h₀, hs, hload, hiff.2 ?_⟩
  intro n hn
  have hblock : blockSize [[], [104, 105]] = 12 := by decide
  rw [hblock, show pageSize = 128 from rfl] at hn
  exact ⟨[], [[104, 105]], rfl, by rw [extent, show pageSize = 128 from rfl]; omega⟩

/-- The one argument `a` arrives as an empty string. -/
theorem arguments_lost_a :
    ∃ s₀ s regs s', boot 32 50 (fun _ => 0) = .ok s₀ ∧
      runFrom (VM.step false) s₀ [.exec sevenProgram (fun _ => 0) (fun _ => 0) true] = .ok s ∧
        Fresh s 0 ∧ blockSize [[97]] ≤ argumentSize.toNat ∧
          loadArguments (fun _ _ => 0) 0 [[97]] s = .ok (.goesOn regs, s') ∧
            ¬ Intact s' 0 [[97]] regs := by
  obtain ⟨s₀, s, h₀, hs, htrans, hphys, hfresh, hexe⟩ := sevenProgram_fresh
  have hcontained : Contained (s.procs 0).space.currentExecutable := by
    rw [hexe]
    exact sevenProgram_contained
  obtain ⟨regs, s', hload, hiff⟩ : ∃ regs s',
      loadArguments (fun _ _ => 0) 0 [[97]] s = .ok (.goesOn regs, s') ∧
        (Intact s' 0 [[97]] regs ↔ Spared [[97]]) :=
    hfresh.intact_iff_spared (fun _ _ => 0) htrans (by rw [hphys]; decide) hcontained (by decide)
      (by decide) (by decide)
  refine ⟨s₀, s, regs, s', h₀, hs, hfresh, by decide, hload, ?_⟩
  rw [hiff]
  intro hspared
  obtain ⟨pre, rest, heq, -⟩ := hspared 0 (by decide)
  have hmem : ([] : List Byte) ∈ ([[97]] : List (List Byte)) := by
    rw [heq]
    simp
  cases List.mem_singleton.1 hmem

end LoadArguments

end Nachos
