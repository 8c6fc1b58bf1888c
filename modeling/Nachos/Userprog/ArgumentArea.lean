import Nachos.Userprog.LoadArguments

/-!
# The area of the arguments

`AddrSpace::Initialize` makes room for `ArgumentSize` bytes at the end of the address space.
All that `checkSP` finds out is whether the stack pointer has moved, so nothing keeps a longer
block out of the stack and of what is below it.
-/

namespace Nachos

open Lib

namespace LoadArguments

open VM

variable {s s' : VM} {p m n d : ℕ} {pages : List ℕ} {u w : Store} {ws : List Store}
  {argv : List (List Byte)} (stack : ℕ → ℕ → Byte)

/-- What `Exec2` and `readArgument` accept: the name of the executable, and strings that are
shorter. `argc * 4` is an `int`. -/
structure Accepted (argv : List (List Byte)) : Prop where
  ne_nil : argv ≠ []
  first : ∀ temp ∈ argv.head?, temp.length ≤ 99
  others : ∀ temp ∈ argv.tail, temp.length ≤ 49
  argc_lt : argv.length * 4 < 2 ^ 31

/-- The bytes of the request are in the area of the arguments of an address space that ends
at `e`. -/
def InArea (e : ℕ) (r : Request) : Prop :=
  e ≤ r.addr.toNat + argumentSize.toNat ∧ r.addr.toNat + r.size ≤ e

/-! ## The calls that store -/

theorem mem_events_of_mem (hw : w ∈ ws) (hpage : vpnOf w.addr ∈ pages) :
    ⟨p, w.request, .written⟩ ∈ events p pages ws := by
  induction ws generalizing pages with
  | nil => cases hw
  | cons u ws ih =>
      rw [events, List.mem_append]
      rcases List.mem_cons.1 hw with rfl | hw
      · right
        rw [Store.outcome, if_pos hpage]
        exact List.mem_singleton_self _
      · exact .inl (ih hw (List.mem_append_left _ hpage))

/-- A call stores when an earlier one was for the same page. -/
theorem mem_events_of_sublist (h : [u, w].Sublist ws) (hpage : vpnOf u.addr = vpnOf w.addr) :
    ⟨p, w.request, .written⟩ ∈ events p pages ws := by
  induction ws generalizing pages with
  | nil => cases h
  | cons x ws ih =>
      rw [events, List.mem_append]
      left
      cases h with
      | cons _ h => exact ih h
      | cons_cons _ h =>
          refine mem_events_of_mem (List.singleton_sublist.1 h) ?_
          rw [hpage]
          exact List.mem_append_right _ (List.mem_singleton_self _)

theorem of_mem_events {e : MemEvent} (h : e ∈ events p pages ws) (hwritten : e.outcome = .written) :
    ∃ w ∈ ws, e.request = w.request ∧
      (vpnOf w.addr ∈ pages ∨ ∃ u, [u, w].Sublist ws ∧ vpnOf u.addr = vpnOf w.addr) := by
  induction ws generalizing pages with
  | nil => cases h
  | cons x ws ih =>
      rw [events, List.mem_append, List.mem_singleton] at h
      rcases h with h | rfl
      · obtain ⟨w, hw, hrequest, hearlier⟩ := ih h
        refine ⟨w, List.mem_cons_of_mem _ hw, hrequest, ?_⟩
        rcases hearlier with hin | ⟨u, hsub, hpage⟩
        · rcases List.mem_append.1 hin with hin | hin
          · exact .inl hin
          · refine .inr ⟨x, (List.singleton_sublist.2 hw).cons_cons x, ?_⟩
            exact (List.mem_singleton.1 hin).symm
        · exact .inr ⟨u, hsub.cons x, hpage⟩
      · refine ⟨x, List.mem_cons_self, rfl, .inl ?_⟩
        unfold Store.outcome at hwritten
        split at hwritten
        · assumption
        · cases hwritten

/-- Nothing is stored outside the area when at most one call is for a byte below it. -/
theorem inArea_of_mem_events {e : ℕ} (hpages : e % pageSize = 0)
    (hinside : ∀ w ∈ ws, w.addr.toNat + w.size ≤ e)
    (hone : ∀ u w, [u, w].Sublist ws → e ≤ u.addr.toNat + argumentSize.toNat ∨
      e ≤ w.addr.toNat + argumentSize.toNat)
    {ev : MemEvent} (h : ev ∈ events p [] ws) (hwritten : ev.outcome = .written) :
    InArea e ev.request := by
  obtain ⟨w, hw, hrequest, hearlier⟩ := of_mem_events h hwritten
  rw [hrequest]
  refine ⟨?_, hinside w hw⟩
  rcases hearlier with hin | ⟨u, hsub, hpage⟩
  · cases hin
  · have harg : argumentSize.toNat = 512 := rfl
    have hone := hone u w hsub
    unfold vpnOf at hpage
    rw [harg] at hone ⊢
    rw [show pageSize = 128 from rfl] at hpages hpage
    simp only [Store.request, Request.addr]
    omega

/-! ## Every call comes to something -/

theorem writeMem_served (h : Starting s p n) (hw : w.Aligned)
    (hv : w.addr.toNat < n * pageSize) :
    ∃ s' o, writeMem stack p s w = .ok (true, s') ∧ s.Served p w.request o s' := by
  obtain ⟨addr, size, value⟩ := w
  have hv : vpnOf addr < (s.procs p).space.numPages := by
    rw [h.numPages]
    exact vpnOf_lt_iff.2 hv
  obtain ⟨s', o, haccess, hserved⟩ : ∃ s' o, s.access false p (.writeMem addr size value)
      (stack s.log.length) = .ok s' ∧ s.Served p (.writeMem addr size value) o s' := by
    cases hvalid : (s.pte p (vpnOf addr)).valid with
    | true =>
        obtain ⟨s', haccess, hserved, -⟩ := @Transparent.access_writeMem s p h.transparent addr size
          value (stack s.log.length) h.lt hw.1 hw.2 hv hvalid
        exact ⟨s', _, haccess, hserved⟩
    | false =>
        obtain ⟨s', haccess, hserved, -⟩ := @Transparent.access_pageFault s p h.transparent
          (.writeMem addr size value) (stack s.log.length) h.lt hw.2 hv hvalid
        exact ⟨s', _, haccess, hserved⟩
  have halive : (s'.procs p).alive = true := by
    rw [hserved.kept.alive]
    exact h.alive
  exact ⟨s', o, by simp only [writeMem, Store.request, haccess, halive], hserved⟩

theorem writeMem_killed (h : Starting s p n) (hw : w.Aligned)
    (hv : n * pageSize ≤ w.addr.toNat) :
    ∃ s', writeMem stack p s w = .ok (false, s') ∧
      s'.log = ⟨p, w.request, .killed⟩ :: s.log := by
  obtain ⟨addr, size, value⟩ := w
  have hv : (s.procs p).space.numPages ≤ vpnOf addr := by
    rw [h.numPages, ← Nat.not_lt, vpnOf_lt_iff, Nat.not_lt]
    exact hv
  have htr : translate s.numPhysPages (s.procs p).space.pageTable (s.procs p).space.numPages addr
      size true = .ok (.exception .addressError) := translate_addressError hw.2 hv
  refine ⟨(s.sysCallExit p).record p (.writeMem addr size value) .killed, ?_, rfl⟩
  simp [writeMem, Store.request, access, Request.addr, Request.size, Request.writing, htr, record,
    sysCallExit]

/-- The calls of a loop: the thread goes on when all of them are inside the address space. -/
theorem writeAll_total (h : Starting s p n) (hws : ∀ w ∈ ws, w.Aligned) :
    ∃ b s' es, writeAll stack p ws s = .ok (b, s') ∧ s'.log = es ++ s.log ∧
      (b = true → Starting s' p n ∧ ∀ w ∈ ws, w.addr.toNat < n * pageSize) := by
  induction ws generalizing s with
  | nil => exact ⟨true, s, [], rfl, rfl, fun _ => ⟨h, fun w hw => by cases hw⟩⟩
  | cons w ws ih =>
      have hw := hws w List.mem_cons_self
      by_cases hv : w.addr.toNat < n * pageSize
      · obtain ⟨s₁, o, hwrite, hserved⟩ := writeMem_served stack h hw hv
        obtain ⟨b, s', es, hrun, hlog, hgoes⟩ := ih (h.served hserved)
          fun w' hw' => hws w' (List.mem_cons_of_mem _ hw')
        refine ⟨b, s', es ++ [⟨p, w.request, o⟩], by simp only [writeAll, hwrite, hrun], ?_, ?_⟩
        · rw [hlog, hserved.kept.log, List.append_assoc]
          rfl
        · intro hb
          exact ⟨(hgoes hb).1, List.forall_mem_cons.2 ⟨hv, (hgoes hb).2⟩⟩
      · obtain ⟨s', hwrite, hlog⟩ := writeMem_killed stack h hw (Nat.not_lt.1 hv)
        exact ⟨false, s', [_], by simp only [writeAll, hwrite], hlog, fun hb => by cases hb⟩

theorem byteStores_aligned {sp : BitVec 32} {temp : List Byte} :
    ∀ w ∈ byteStores sp temp, w.Aligned := by
  intro w hw
  obtain ⟨k, -, rfl⟩ := List.mem_map.1 hw
  exact ⟨.inl rfl, by simp [misaligned]⟩

theorem srem_four (sp : BitVec 32) : (sp - sp.srem 4).toNat % 4 = 0 := by
  have hint := toInt_sub_srem sp
  have hmod : sp.toInt.tmod 4 = _ := Int.tmod_eq_emod
  rw [BitVec.toInt_eq_toNat_cond (sp - sp.srem 4)] at hint
  split at hint <;> split at hmod <;> omega

theorem pointerStores_aligned {sp : BitVec 32} {arr : List (BitVec 32)} (hsp : sp.toNat % 4 = 0) :
    ∀ w ∈ pointerStores sp arr, w.Aligned := by
  intro w hw
  obtain ⟨i, -, rfl⟩ := List.mem_map.1 hw
  refine ⟨.inr (.inr rfl), not_misaligned_four ?_⟩
  rw [BitVec.toNat_add, BitVec.toNat_ofNat]
  omega

/-- The stack pointer has left the address space as soon as it is negative. -/
theorem le_of_toNat_spAt_lt {e : ℕ} (he : e ≤ 2 ^ 31) (hd : d ≤ 2 ^ 32)
    (h : (spAt (BitVec.ofNat 32 e) d).toNat < e) : d ≤ e := by
  unfold spAt at h
  rw [BitVec.toNat_sub, BitVec.toNat_ofNat, BitVec.toNat_ofNat] at h
  omega

/-- The loop over strings that may not fit: the thread does not come back when they reach
below the address 0. -/
theorem loadStrings_total {e : ℕ} (he : e = n * pageSize) (hmax : e ≤ 2 ^ 31)
    {arr : List (BitVec 32)} (h : Starting s p n) (hd : d ≤ e)
    (hlen : ∀ temp ∈ argv, temp.length ≤ 99) :
    ∃ r s' es, loadStrings stack p (BitVec.ofNat 32 e) argv (spAt (BitVec.ofNat 32 e) d) arr s =
        .ok (r, s') ∧ s'.log = es ++ s.log ∧
      (r = .exited ∨ ∃ arr', r = .goesOn (spAt (BitVec.ofNat 32 e) (d + extent argv), arr') ∧
        d + extent argv ≤ e ∧ Starting s' p n) := by
  induction argv generalizing s d arr with
  | nil => exact ⟨_, s, [], rfl, rfl, .inr ⟨arr, rfl, hd, h⟩⟩
  | cons temp argv ih =>
      have htemp := hlen temp List.mem_cons_self
      obtain ⟨b, s₁, es₁, hrun, hlog, hgoes⟩ := writeAll_total stack h
        (@byteStores_aligned (spAt (BitVec.ofNat 32 e) (d + (temp.length + 1))) temp)
      rw [loadStrings]
      simp only [spAt_sub]
      rw [if_neg (checkSP_ne _ (by omega) (by omega)), hrun]
      cases b with
      | false => exact ⟨.exited, s₁, es₁, rfl, hlog, .inl rfl⟩
      | true =>
          obtain ⟨hst, hin⟩ := hgoes rfl
          have hfirst := hin _ (List.mem_map.2 ⟨0, List.mem_range.2 (Nat.succ_pos _), rfl⟩)
          simp only [BitVec.add_zero, ← he] at hfirst
          have hnext : d + (temp.length + 1) ≤ e := le_of_toNat_spAt_lt hmax (by omega) hfirst
          obtain ⟨r, s', es, hrest, hlog', hr⟩ := ih hst hnext
            fun t ht => hlen t (List.mem_cons_of_mem _ ht)
          refine ⟨r, s', es ++ es₁, hrest, by rw [hlog', hlog, List.append_assoc], ?_⟩
          rw [extent, ← Nat.add_assoc]
          exact hr

theorem loadStrings_append (last : BitVec 32) (pre rest : List (List Byte)) (sp : BitVec 32)
    (arr : List (BitVec 32)) :
    loadStrings stack p last (pre ++ rest) sp arr s =
      match loadStrings stack p last pre sp arr s with
      | .error e => .error e
      | .ok (.refused, s') => .ok (.refused, s')
      | .ok (.exited, s') => .ok (.exited, s')
      | .ok (.goesOn (sp, arr), s') => loadStrings stack p last rest sp arr s' := by
  induction pre generalizing sp arr s with
  | nil => rfl
  | cons temp pre ih =>
      rw [List.cons_append, loadStrings, loadStrings]
      split
      · rfl
      · split
        · rfl
        · rfl
        · exact ih _ _

/-- `checkSP` does not refuse the pointers either. -/
theorem checkSP_sub_srem_ne {e : ℕ} (he : e ≤ 2 ^ 31) (hfour : e % 4 = 0) (hlow : 4 ≤ d)
    (hhigh : d + 4 ≤ 2 ^ 32) :
    checkSP (spAt (BitVec.ofNat 32 e) d - (spAt (BitVec.ofNat 32 e) d).srem 4)
      (BitVec.ofNat 32 e) ≠ 0 := by
  intro h0
  unfold checkSP at h0
  have heq : spAt (BitVec.ofNat 32 e) d - (spAt (BitVec.ofNat 32 e) d).srem 4 =
      BitVec.ofNat 32 e := by
    bv_omega
  have hint := toInt_sub_srem (spAt (BitVec.ofNat 32 e) d)
  have hmod : (spAt (BitVec.ofNat 32 e) d).toInt.tmod 4 = _ := Int.tmod_eq_emod
  have hsp : (spAt (BitVec.ofNat 32 e) d).toNat = (e + (2 ^ 32 - d)) % 2 ^ 32 := by
    unfold spAt
    rw [BitVec.toNat_sub, BitVec.toNat_ofNat, BitVec.toNat_ofNat]
    omega
  have hcond := BitVec.toInt_eq_toNat_cond (spAt (BitVec.ofNat 32 e) d)
  rw [heq, BitVec.toInt_eq_toNat_cond, BitVec.toNat_ofNat] at hint
  rw [hsp] at hcond
  split at hint <;> split at hmod <;> split at hcond <;> omega

/-- `LoadArguments` after its first strings does not return 0. -/
theorem loadArguments_total (h : Starting s' p (s.procs p).space.numPages)
    (hmax : lastAddr s p ≤ 2 ^ 31) (hacc : Accepted argv) {rest : List (List Byte)}
    {arr : List (BitVec 32)}
    (hstrings : loadStrings stack p (BitVec.ofNat 32 (lastAddr s p)) argv
        (BitVec.ofNat 32 (lastAddr s p)) [] s =
      loadStrings stack p (BitVec.ofNat 32 (lastAddr s p)) rest
        (spAt (BitVec.ofNat 32 (lastAddr s p)) d) arr s')
    (hd : d ≤ lastAddr s p) (hrest : d + extent rest = extent argv)
    (hlen : ∀ temp ∈ rest, temp.length ≤ 99) :
    ∃ r s'' es, loadArguments stack p argv s = .ok (r, s'') ∧ s''.log = es ++ s'.log ∧
      r ≠ .refused := by
  have hpos := List.length_pos_iff.2 hacc.ne_nil
  have hargc := hacc.argc_lt
  have hfour : lastAddr s p % 4 = 0 := by
    rw [lastAddr, show pageSize = 128 from rfl]
    omega
  obtain ⟨r, s₁, es₁, hload, hlog₁, hr⟩ :=
    @loadStrings_total s' p _ d rest stack _ rfl hmax arr h hd
    hlen
  unfold loadArguments
  simp only
  rw [hstrings]
  rcases hr with rfl | ⟨arr', rfl, hfit, hst⟩
  · exact ⟨.exited, s₁, es₁, by rw [lastAddr, hload], hlog₁, by simp⟩
  · obtain ⟨b, s₂, es₂, hrun, hlog₂, -⟩ := writeAll_total stack hst
      (@pointerStores_aligned _ arr' (srem_four
        (spAt (BitVec.ofNat 32 (lastAddr s p)) (d + extent rest + argv.length * 4))))
    have hlog : s₂.log = (es₂ ++ es₁) ++ s'.log := by rw [hlog₂, hlog₁, List.append_assoc]
    change loadStrings stack p (BitVec.ofNat 32 (lastAddr s p)) rest
      (spAt (BitVec.ofNat 32 (lastAddr s p)) d) arr s' = .ok (.goesOn
        (spAt (BitVec.ofNat 32 (lastAddr s p)) (d + extent rest), arr'), s₁) at hload
    rw [hload]
    simp only [spAt_sub]
    rw [if_neg (checkSP_sub_srem_ne hmax hfour (by omega) (by unfold lastAddr at hmax; omega)),
      hrun]
    cases b with
    | false => exact ⟨.exited, s₂, _, rfl, hlog, by simp⟩
    | true => exact ⟨.goesOn _, s₂, _, rfl, hlog, by simp⟩

/-! ## Where the block ends -/

section Ends

variable {e : ℕ}

theorem Accepted.length_le (h : Accepted argv) : ∀ temp ∈ argv, temp.length ≤ 99 := by
  intro temp htemp
  cases argv with
  | nil => cases htemp
  | cons t argv =>
      rcases List.mem_cons.1 htemp with rfl | htemp
      · exact h.first temp rfl
      · exact Nat.le_trans (h.others temp htemp) (by decide)

theorem extent_le (h : ∀ temp ∈ argv, temp.length ≤ 49) : extent argv ≤ argv.length * 50 := by
  induction argv with
  | nil => exact Nat.le_refl 0
  | cons temp argv ih =>
      have htemp := h temp List.mem_cons_self
      have hrest := ih fun t ht => h t (List.mem_cons_of_mem _ ht)
      rw [extent, List.length_cons]
      omega

theorem Accepted.extent_le (h : Accepted argv) : extent argv ≤ argv.length * 50 + 50 := by
  cases argv with
  | nil => exact absurd rfl h.ne_nil
  | cons temp argv =>
      have htemp : temp.length ≤ 99 := h.first temp rfl
      have hrest : extent argv ≤ argv.length * 50 := LoadArguments.extent_le h.others
      rw [extent, List.length_cons]
      omega

theorem length_le_extent (argv : List (List Byte)) : argv.length ≤ extent argv := by
  induction argv with
  | nil => exact Nat.le_refl 0
  | cons temp argv ih =>
      rw [extent, List.length_cons]
      omega

/-- A character of a string and the call for it. -/
theorem mem_byteStores_of_le {sp : BitVec 32} {temp : List Byte} {k : ℕ} (hk : k ≤ temp.length) :
    ∃ w ∈ byteStores sp temp, w.addr = sp + BitVec.ofNat 32 k ∧ w.size = 1 :=
  ⟨_, List.mem_map.2 ⟨k, List.mem_range.2 (Nat.lt_succ_of_le hk), rfl⟩, rfl, rfl⟩

theorem pair_sublist {β : Type*} (f : ℕ → β) {i j n : ℕ} (hij : i < j) (hj : j < n) :
    [f i, f j].Sublist ((List.range n).map f) := by
  obtain ⟨r, hr⟩ := exists_split f hj
  have hi : f i ∈ (List.range j).map f := List.mem_map.2 ⟨i, List.mem_range.2 hij, rfl⟩
  rw [hr]
  exact (List.singleton_sublist.2 hi).append (List.singleton_sublist.2 List.mem_cons_self)

theorem exists_byteStores_pair {sp : BitVec 32} {temp : List Byte} {i j : ℕ} (hij : i < j)
    (hj : j ≤ temp.length) :
    ∃ u w : Store, u.addr = sp + BitVec.ofNat 32 i ∧ w.addr = sp + BitVec.ofNat 32 j ∧
      [u, w].Sublist (byteStores sp temp) :=
  ⟨_, _, rfl, rfl, pair_sublist (fun k => ({ addr := sp + BitVec.ofNat 32 k
                                             size := 1
                                             value := (temp.getD k 0).signExtend 32 } : Store))
    hij (Nat.lt_succ_of_le hj)⟩

theorem exists_pointerStores_pair {sp : BitVec 32} {arr : List (BitVec 32)} {i j : ℕ}
    (hij : i < j) (hj : j < arr.length) :
    ∃ u w : Store, u.addr = sp + BitVec.ofNat 32 (i * 4) ∧ w.addr = sp + BitVec.ofNat 32 (j * 4) ∧
      [u, w].Sublist (pointerStores sp arr) :=
  ⟨_, _, rfl, rfl, pair_sublist (fun i => ({ addr := sp + BitVec.ofNat 32 (i * 4)
                                             size := 4
                                             value := arr.getD i 0 } : Store)) hij hj⟩

/-- The strings store below their area as soon as they take two bytes more. -/
theorem exists_string_outside (hacc : Accepted argv) (hext : 513 < extent argv)
    (he : e ≤ 2 ^ 31) (hpages : e % pageSize = 0) (hroom : 640 ≤ e) :
    ∃ pre rest u w, argv = pre ++ rest ∧ extent pre ≤ 640 ∧
      [u, w].Sublist (stringStores (BitVec.ofNat 32 e) 0 pre) ∧ vpnOf u.addr = vpnOf w.addr ∧
        w.addr.toNat + 512 < e := by
  obtain ⟨pre, temp, rest, rfl, hlow, hhigh⟩ := exists_argument (Nat.lt_of_succ_lt hext)
  have htemp : temp.length ≤ 99 := hacc.length_le temp (by simp)
  rw [extent_append, extent] at hext
  rw [show pageSize = 128 from rfl] at hpages
  by_cases hone : extent pre + (temp.length + 1) = 513
  · -- only the first byte of the string is below the area, and the next string follows
    cases rest with
    | nil =>
        rw [extent] at hext
        omega
    | cons next rest =>
        have hnext : next.length ≤ 49 := by
          refine hacc.others next ?_
          cases pre <;> simp
        obtain ⟨u, hu, huaddr, -⟩ := @mem_byteStores_of_le
          (spAt (BitVec.ofNat 32 e) (0 + extent pre + (temp.length + 1))) temp 0 (Nat.zero_le _)
        obtain ⟨w, hw, hwaddr, -⟩ := @mem_byteStores_of_le
          (spAt (BitVec.ofNat 32 e) (0 + extent pre + (temp.length + 1) + (next.length + 1))) next 0
          (Nat.zero_le _)
        have hu' : u.addr.toNat = e - 513 := by
          rw [huaddr, toNat_spAt_add he (by omega) (by omega)]
          omega
        have hw' : w.addr.toNat = e - 513 - (next.length + 1) := by
          rw [hwaddr, toNat_spAt_add he (by omega) (by omega)]
          omega
        refine ⟨pre ++ [temp, next], rest, u, w, by simp, ?_, ?_, ?_, by omega⟩
        · rw [extent_append, extent, extent, extent]
          omega
        · rw [stringStores_append, stringStores, stringStores]
          refine List.Sublist.trans ?_ (List.sublist_append_right _ _)
          exact (List.singleton_sublist.2 hu).append
            (List.singleton_sublist.2 (List.mem_append_left _ hw))
        · unfold vpnOf
          rw [hu', hw', show pageSize = 128 from rfl]
          omega
  · -- the first two bytes of the string are below the area
    have haddr : ∀ k ≤ 1, (spAt (BitVec.ofNat 32 e) (0 + extent pre + (temp.length + 1)) +
        BitVec.ofNat 32 k).toNat = e - (extent pre + (temp.length + 1)) + k := by
      intro k hk
      rw [Nat.zero_add]
      exact toNat_spAt_add he (by omega) (by omega)
    obtain ⟨u, w, hu, hw, hsub⟩ := @exists_byteStores_pair
      (spAt (BitVec.ofNat 32 e) (0 + extent pre + (temp.length + 1))) temp 0 1 (by omega) (by omega)
    refine ⟨pre ++ [temp], rest, u, w, by simp, ?_, ?_, ?_, ?_⟩
    · rw [extent_append, extent, extent]
      omega
    · rw [stringStores_append, stringStores]
      exact (hsub.trans (List.sublist_append_left _ _)).trans (List.sublist_append_right _ _)
    · unfold vpnOf
      rw [hu, hw, haddr 0 (by omega), haddr 1 (by omega), show pageSize = 128 from rfl]
      omega
    · rw [hw, haddr 1 (by omega)]
      omega

/-- The pointers store below the area when there are at least two of them there. -/
theorem exists_pointer_outside {sp : BitVec 32} {arr : List (BitVec 32)}
    (hpages : e % pageSize = 0) (hfour : sp.toNat % 4 = 0) (hlow : sp.toNat + 520 ≤ e)
    (hhigh : e ≤ sp.toNat + arr.length * 4 + 516) (htwo : 2 ≤ arr.length)
    (hmax : sp.toNat + arr.length * 4 ≤ 2 ^ 31) :
    ∃ u w, [u, w].Sublist (pointerStores sp arr) ∧ vpnOf u.addr = vpnOf w.addr ∧
      w.addr.toNat + 512 < e := by
  rw [show pageSize = 128 from rfl] at hpages
  have haddr : ∀ i < arr.length,
      (sp + BitVec.ofNat 32 (i * 4)).toNat = sp.toNat + i * 4 := by
    intro i hi
    rw [BitVec.toNat_add, BitVec.toNat_ofNat]
    omega
  -- two pointers of one page
  obtain ⟨i, hi, hpage, hbelow⟩ : ∃ i, i + 1 < arr.length ∧ (sp.toNat + i * 4) % 128 ≠ 124 ∧
      sp.toNat + (i + 1) * 4 + 512 < e := by
    by_cases hend : sp.toNat % 128 = 124
    · exact ⟨1, by omega, by omega, by omega⟩
    · exact ⟨0, by omega, by omega, by omega⟩
  obtain ⟨u, w, hu, hw, hsub⟩ := @exists_pointerStores_pair sp arr i (i + 1) (Nat.lt_succ_self i) hi
  refine ⟨u, w, hsub, ?_, ?_⟩
  · unfold vpnOf
    rw [hu, hw, haddr i (by omega), haddr (i + 1) hi, show pageSize = 128 from rfl]
    omega
  · rw [hw, haddr (i + 1) hi]
    exact hbelow

end Ends

/-! ## What `LoadArguments` stores -/

/-- The strings of at most five pages, in a new process. -/
theorem loadStrings_spec (h : Transparent s) (hframes : 5 ≤ s.numPhysPages) (hfresh : Fresh s p)
    (hext : extent argv ≤ 640) :
    ∃ s' pages, loadStrings stack p (BitVec.ofNat 32 (lastAddr s p)) argv
        (BitVec.ofNat 32 (lastAddr s p)) [] s =
        .ok (.goesOn (spAt (BitVec.ofNat 32 (lastAddr s p)) (extent argv),
          pointers (BitVec.ofNat 32 (lastAddr s p)) 0 argv), s') ∧
      Starting s' p (s.procs p).space.numPages ∧ s'.numPhysPages = s.numPhysPages ∧
        s'.Recent p pages ∧ pages.Nodup ∧
          (∀ v ∈ pages, (s.procs p).space.numPages ≤ v + 5 ∧ v < (s.procs p).space.numPages) ∧
            s'.log = events p [] (stringStores (BitVec.ofNat 32 (lastAddr s p)) 0 argv) ++
              s.log := by
  obtain ⟨hroom, hmax, -⟩ := hfresh.lastAddr_range h
  have hws : ∀ w ∈ stringStores (BitVec.ofNat 32 (lastAddr s p)) 0 argv,
      w.Aligned ∧ InLast 5 (s.procs p).space.numPages w.addr.toNat := by
    intro w hw
    have hsize := size_of_mem_stringStores hw
    have hrange := (mem_stringStores hmax (by omega)).1 ⟨w, hw, rfl⟩
    have hfive : 5 * pageSize = 640 := rfl
    refine ⟨⟨.inl hsize, ?_⟩, ?_⟩
    · rw [misaligned, hsize]
      simp
    · unfold InLast
      unfold lastAddr at hrange
      omega
  obtain ⟨s', hrun, hst, hnum, hrec', -, hlog⟩ := writeAll_spec stack
    ⟨h, hfresh.running.1, hfresh.running.2, rfl⟩ hframes (recent_nil h.sound hfresh.invalid) .nil
    (fun v hv => by cases hv) hws
  have hstrings := @loadStrings_eq s p stack (BitVec.ofNat 32 (lastAddr s p)) argv 0 [] (by omega)
  rw [hrun, spAt_zero, Nat.zero_add, List.nil_append] at hstrings
  refine ⟨s', _, hstrings, hst, hnum, hrec', nodup_pages_touches .nil, ?_, hlog⟩
  intro v hv
  rcases mem_pages_touches.1 hv with hv | ⟨w, hw, rfl⟩
  · cases hv
  · obtain ⟨x, hx, rfl⟩ := List.mem_map.1 hw
    obtain ⟨-, hlow, hhigh⟩ := hws x hx
    have hpage : x.put.page pageSize = x.addr.toNat / 128 := rfl
    rw [show pageSize = 128 from rfl] at hlow hhigh hpage
    rw [show pageSize = 128 from rfl, hpage]
    omega

/-- The block lies in the area, or one word of it does not. -/
theorem inArea_of_blockSize_le (h : Transparent s) (hframes : 5 ≤ s.numPhysPages)
    (hfresh : Fresh s p) (hne : argv ≠ []) (hfit : blockSize argv ≤ argumentSize.toNat + 4) :
    ∃ r s' es, loadArguments stack p argv s = .ok (r, s') ∧ s'.log = es ++ s.log ∧
      ∀ ev ∈ es, ev.outcome = .written → InArea (lastAddr s p) ev.request := by
  obtain ⟨hroom, hmax, hpages⟩ := hfresh.lastAddr_range h
  have harg : argumentSize.toNat = 512 := rfl
  have hblock : blockSize argv = (extent argv + argv.length * 4 + 3) / 4 * 4 := rfl
  have hpos := List.length_pos_iff.2 hne
  have hinside : ∀ w ∈ stores (lastAddr s p) argv, w.Aligned ∧
      lastAddr s p ≤ w.addr.toNat + blockSize argv ∧ w.addr.toNat + w.size ≤ lastAddr s p := by
    intro w hw
    exact stores_inside hmax (by omega) (by omega) hw
  have hws : ∀ w ∈ stores (lastAddr s p) argv,
      w.Aligned ∧ InLast 5 (s.procs p).space.numPages w.addr.toNat := by
    intro w hw
    obtain ⟨haligned, hlow, hhigh⟩ := hinside w hw
    have hsize : 0 < w.size := by
      rcases haligned.1 with hs | hs | hs <;> omega
    have hfive : 5 * pageSize = 640 := rfl
    unfold lastAddr at hlow hhigh
    exact ⟨haligned, by omega, by omega⟩
  obtain ⟨s', hrun, -, -, -, -, hlog⟩ := writeAll_spec stack
    ⟨h, hfresh.running.1, hfresh.running.2, rfl⟩ hframes (recent_nil h.sound hfresh.invalid) .nil
    (fun v hv => by cases hv) hws
  refine ⟨_, s', _, by rw [loadArguments_eq stack hne hmax (by omega), hrun], hlog, ?_⟩
  intro ev hev
  refine inArea_of_mem_events hpages (fun w hw => (hinside w hw).2.2) ?_ hev
  -- two calls below the area would be for one word
  intro u w hsub
  by_contra hbelow
  have hapart : ((stores (lastAddr s p) argv).map Store.put).Pairwise Put.Apart :=
    stores_apart hmax (by omega)
  have hapart : u.put.Apart w.put := by simpa using hapart.sublist (hsub.map Store.put)
  have hword : ∀ x ∈ [u, w], x.addr.toNat + argumentSize.toNat < lastAddr s p →
      x.addr.toNat + 516 = lastAddr s p ∧ 0 < x.size := by
    intro x hx hlow
    have hmem := hsub.subset hx
    obtain ⟨haligned, hx', -⟩ := hinside x hmem
    rcases List.mem_append.1 hmem with hmem | hmem
    · have := (mem_stringStores hmax (by omega)).1 ⟨x, hmem, rfl⟩
      omega
    · obtain ⟨i, -, haddr, hsize⟩ := mem_pointerStores hmax (by omega) hmem
      omega
  have hu := hword u (by simp) (by omega)
  have hw := hword w (by simp) (by omega)
  unfold Put.Apart Store.put at hapart
  simp only at hapart
  omega

theorem exists_pointerStores_cons (sp a : BitVec 32) (arr : List (BitVec 32)) :
    ∃ w ws, pointerStores sp (a :: arr) = w :: ws ∧ w.addr = sp :=
  ⟨_, _, by rw [pointerStores, List.length_cons, List.range_succ_eq_map, List.map_cons], by simp⟩

/-- A stack pointer that is negative stays outside the address space. -/
theorem le_toNat_sub_srem {e : ℕ} (he : e ≤ 2 ^ 31) (hlow : e + 4 ≤ d) (hhigh : d < 2 ^ 31) :
    e ≤ (spAt (BitVec.ofNat 32 e) d - (spAt (BitVec.ofNat 32 e) d).srem 4).toNat := by
  have hint := toInt_sub_srem (spAt (BitVec.ofNat 32 e) d)
  have hmod : (spAt (BitVec.ofNat 32 e) d).toInt.tmod 4 = _ := Int.tmod_eq_emod
  have hsp := @toInt_spAt e d he (by omega) (by omega)
  rw [BitVec.toInt_eq_toNat_cond] at hint
  split at hint <;> split at hmod <;> omega

/-- One that is not negative, or becomes 0. -/
theorem toNat_sub_srem {e : ℕ} (he : e ≤ 2 ^ 31) (hpos : 0 < d) (hd : d ≤ e + 3)
    (hfour : e % 4 = 0) :
    (spAt (BitVec.ofNat 32 e) d - (spAt (BitVec.ofNat 32 e) d).srem 4).toNat = (e - d) / 4 * 4 := by
  have hint := toInt_sub_srem (spAt (BitVec.ofNat 32 e) d)
  have hmod : (spAt (BitVec.ofNat 32 e) d).toInt.tmod 4 = _ := Int.tmod_eq_emod
  have hsp := @toInt_spAt e d he hpos (by omega)
  rw [BitVec.toInt_eq_toNat_cond] at hint
  split at hint <;> split at hmod <;> omega

/-- The process is killed at the first pointer, and at most one byte of the strings is below the
area. -/
theorem inArea_of_negative (h : Transparent s) (hframes : 5 ≤ s.numPhysPages)
    (hfresh : Fresh s p) (hne : argv ≠ []) (hext : extent argv ≤ argumentSize.toNat + 1)
    (hlow : lastAddr s p + 4 ≤ extent argv + argv.length * 4) :
    ∃ r s' es, loadArguments stack p argv s = .ok (r, s') ∧ s'.log = es ++ s.log ∧
      ∀ ev ∈ es, ev.outcome = .written → InArea (lastAddr s p) ev.request := by
  obtain ⟨hroom, hmax, hpages⟩ := hfresh.lastAddr_range h
  have harg : argumentSize.toNat = 512 := rfl
  have hargc := length_le_extent argv
  obtain ⟨s₁, pages, hstrings, hst, -, -, -, -, hlog⟩ := @loadStrings_spec s p argv stack
    h hframes hfresh (by omega)
  have hbase := le_toNat_sub_srem hmax hlow (by omega)
  have hchecked := @checkSP_sub_srem_ne (extent argv + argv.length * 4) _ hmax
    (by omega) (by omega) (by omega)
  obtain ⟨sp, hsp⟩ : ∃ sp, sp = spAt (BitVec.ofNat 32 (lastAddr s p))
    (extent argv + argv.length * 4) - (spAt (BitVec.ofNat 32 (lastAddr s p))
      (extent argv + argv.length * 4)).srem 4 := ⟨_, rfl⟩
  have haligned := @pointerStores_aligned sp (pointers (BitVec.ofNat 32 (lastAddr s p)) 0 argv)
    (by rw [hsp]; exact srem_four _)
  rw [← hsp] at hbase hchecked
  obtain ⟨w, ws, hstores, hw⟩ : ∃ w ws, pointerStores sp
      (pointers (BitVec.ofNat 32 (lastAddr s p)) 0 argv) = w :: ws ∧ w.addr = sp := by
    cases argv with
    | nil => exact absurd rfl hne
    | cons temp argv => exact exists_pointerStores_cons _ _ _
  obtain ⟨s', hkilled, hlog'⟩ := writeMem_killed stack hst
    (haligned w (by rw [hstores]; exact List.mem_cons_self)) (by rw [hw]; exact hbase)
  refine ⟨.exited, s', [⟨p, w.request, .killed⟩] ++ events p []
    (stringStores (BitVec.ofNat 32 (lastAddr s p)) 0 argv), ?_, ?_, ?_⟩
  · unfold loadArguments
    simp only [hstrings, spAt_sub, ← hsp]
    rw [if_neg hchecked, hstores]
    simp only [writeAll, hkilled]
  · rw [hlog', hlog]
    rfl
  · intro ev hev hwritten
    rcases List.mem_append.1 hev with hev | hev
    · cases List.mem_singleton.1 hev
      cases hwritten
    · have hrange : ∀ w ∈ stringStores (BitVec.ofNat 32 (lastAddr s p)) 0 argv,
          lastAddr s p - (0 + extent argv) ≤ w.addr.toNat ∧ w.addr.toNat < lastAddr s p - 0 := by
        intro w hw
        exact (mem_stringStores hmax (by omega)).1 ⟨w, hw, rfl⟩
      refine inArea_of_mem_events hpages ?_ ?_ hev hwritten
      · intro w hw
        rw [size_of_mem_stringStores hw]
        exact Nat.lt_of_lt_of_le (hrange w hw).2 (Nat.sub_le _ _)
      · intro u w hsub
        have hapart := (@stringStores_apart _ 0 argv hmax (by omega)).sublist (hsub.map Store.put)
        have hapart : u.put.Apart w.put := by simpa using hapart
        have hu := hsub.subset (show u ∈ [u, w] by simp)
        have hw := hsub.subset (show w ∈ [u, w] by simp)
        have husize := size_of_mem_stringStores hu
        have hwsize := size_of_mem_stringStores hw
        have hu := hrange u hu
        have hw := hrange w hw
        unfold Put.Apart Store.put at hapart
        simp only at hapart
        omega

/-- The strings leave the area by more than a byte. -/
theorem outside_of_extent (h : Transparent s) (hframes : 5 ≤ s.numPhysPages) (hfresh : Fresh s p)
    (hacc : Accepted argv) (hext : argumentSize.toNat + 1 < extent argv) :
    ∃ r s' es, loadArguments stack p argv s = .ok (r, s') ∧ s'.log = es ++ s.log ∧ r ≠ .refused ∧
      ∃ ev ∈ es, ev.outcome = .written ∧ ¬ InArea (lastAddr s p) ev.request := by
  obtain ⟨hroom, hmax, hpages⟩ := hfresh.lastAddr_range h
  have harg : argumentSize.toNat = 512 := rfl
  obtain ⟨pre, rest, u, w, rfl, hpre, hsub, hpage, hbelow⟩ := exists_string_outside hacc hext hmax
    hpages (by omega)
  obtain ⟨s₁, pages, hstrings, hst, -, -, -, -, hlog⟩ := @loadStrings_spec s p pre stack
    h hframes hfresh hpre
  obtain ⟨r, s', es, hload, hlog', hr⟩ := @loadArguments_total s s₁ p (extent pre) (pre ++ rest)
    stack hst hmax hacc rest _ (by rw [loadStrings_append, hstrings]) (by omega)
    (extent_append pre rest).symm
    fun temp htemp => hacc.length_le temp (List.mem_append_right _ htemp)
  refine ⟨r, s', es ++ _, hload, by rw [hlog', hlog, List.append_assoc], hr,
    ⟨p, w.request, .written⟩, List.mem_append_right _ (mem_events_of_sublist hsub hpage), rfl, ?_⟩
  rintro ⟨hlow, -⟩
  simp only [Store.request, Request.addr] at hlow
  omega

/-- The pointers leave the area by more than a word. -/
theorem outside_of_pointers (h : Transparent s) (hframes : 21 ≤ s.numPhysPages)
    (hfresh : Fresh s p) (hacc : Accepted argv) (hext : extent argv ≤ argumentSize.toNat + 1)
    (hblock : argumentSize.toNat + 4 < blockSize argv)
    (hlow : extent argv + argv.length * 4 < lastAddr s p + 4) :
    ∃ r s' es, loadArguments stack p argv s = .ok (r, s') ∧ s'.log = es ++ s.log ∧ r ≠ .refused ∧
      ∃ ev ∈ es, ev.outcome = .written ∧ ¬ InArea (lastAddr s p) ev.request := by
  obtain ⟨hroom, hmax, hpages⟩ := hfresh.lastAddr_range h
  have harg : argumentSize.toNat = 512 := rfl
  have hpos := List.length_pos_iff.2 hacc.ne_nil
  have hargc := length_le_extent argv
  have hlen := hacc.extent_le
  have hfour : lastAddr s p % 4 = 0 := by omega
  unfold blockSize at hblock
  obtain ⟨s₁, pages, hstrings, hst, hnum, hrec, hnodup, hin, hlog⟩ := @loadStrings_spec s p argv
    stack h (by omega) hfresh (by omega)
  have hbase := @toNat_sub_srem (extent argv + argv.length * 4) _ hmax (by omega) (by omega) hfour
  have hchecked := @checkSP_sub_srem_ne (extent argv + argv.length * 4) _ hmax hfour (by omega)
    (by omega)
  obtain ⟨sp, hsp⟩ : ∃ sp, sp = spAt (BitVec.ofNat 32 (lastAddr s p))
    (extent argv + argv.length * 4) - (spAt (BitVec.ofNat 32 (lastAddr s p))
      (extent argv + argv.length * 4)).srem 4 := ⟨_, rfl⟩
  rw [← hsp] at hbase hchecked
  obtain ⟨arr, harr⟩ : ∃ arr, arr = pointers (BitVec.ofNat 32 (lastAddr s p)) 0 argv := ⟨_, rfl⟩
  have harrlen : arr.length = argv.length := by rw [harr, length_pointers]
  have hws : ∀ w ∈ pointerStores sp arr,
      w.Aligned ∧ InLast 21 (s.procs p).space.numPages w.addr.toNat := by
    intro w hw
    refine ⟨pointerStores_aligned (by omega) w hw, ?_⟩
    obtain ⟨i, hi, rfl⟩ := List.mem_map.1 hw
    rw [List.mem_range] at hi
    have haddr : (sp + BitVec.ofNat 32 (i * 4)).toNat = sp.toNat + i * 4 := by
      rw [BitVec.toNat_add, BitVec.toNat_ofNat]
      omega
    have hlast : (s.procs p).space.numPages * pageSize = lastAddr s p := rfl
    have hsize : 21 * pageSize = 2688 := rfl
    unfold InLast
    rw [haddr, hlast, hsize]
    omega
  obtain ⟨s', hrun, -, -, -, -, hlog'⟩ := writeAll_spec stack hst (by rwa [hnum]) hrec hnodup
    (fun v hv => ⟨Nat.le_trans (hin v hv).1 (by omega), (hin v hv).2⟩) hws
  obtain ⟨u, w, hsub, hpage, hbelow⟩ := @exists_pointer_outside (lastAddr s p) sp arr hpages
    (by omega) (by omega) (by omega) (by omega) (by omega)
  refine ⟨.goesOn ⟨sp - 16, BitVec.ofNat 32 argv.length, sp⟩, s', _ ++ _, ?_,
    by rw [hlog', hlog, List.append_assoc], by simp, ⟨p, w.request, .written⟩,
    List.mem_append_left _ (mem_events_of_sublist hsub hpage), rfl, ?_⟩
  · unfold loadArguments
    simp only [hstrings, spAt_sub, ← hsp, ← harr]
    rw [if_neg hchecked, hrun]
  · rintro ⟨hlow, -⟩
    simp only [Store.request, Request.addr] at hlow
    omega

/-- What `LoadArguments` stores lies in the area of the arguments exactly when the block is at most
one word longer than the area, or when the strings are at most one byte longer and the pointers
reach below the address 0: whatever processes run, the first call for a page stores nothing, and
one outside the address space ends the process. -/
theorem arguments_in_area_iff {numPhysPages : ℕ} (hn : 21 ≤ numPhysPages) {maxProcess : ℕ}
    {words : ℕ → BitVec 32} {s₀ s : VM} {ops : List Op} (hops : ∀ op ∈ ops, op.WellFormed)
    (h₀ : boot numPhysPages maxProcess words = .ok s₀)
    (hrun : runFrom (VM.step false) s₀ ops = .ok s) {p : ℕ} (hfresh : Fresh s p)
    {argv : List (List Byte)} (hacc : Accepted argv) (stack : ℕ → ℕ → Byte) :
    (s.procs p).space.currentExecutable.extent + userStackSize.toNat + argumentSize.toNat ≤
        lastAddr s p ∧
      ∃ r s' es, loadArguments stack p argv s = .ok (r, s') ∧ s'.log = es ++ s.log ∧
        ((r = .refused ∨ ∀ ev ∈ es, ev.outcome = .written → InArea (lastAddr s p) ev.request) ↔
          blockSize argv ≤ argumentSize.toNat + 4 ∨
            (extent argv ≤ argumentSize.toNat + 1 ∧
              lastAddr s p + 4 ≤ extent argv + argv.length * 4)) := by
  obtain ⟨htrans, hphys⟩ := transparent_run (by omega) h₀ hops hrun
  have hext := extent_lt_blockSize argv
  have hpos := List.length_pos_iff.2 hacc.ne_nil
  have hargc := length_le_extent argv
  refine ⟨htrans.programs.room p hfresh.running.1, ?_⟩
  by_cases hfit : blockSize argv ≤ argumentSize.toNat + 4
  · obtain ⟨r, s', es, hload, hlog, hin⟩ := inArea_of_blockSize_le stack htrans (by omega) hfresh
      hacc.ne_nil hfit
    exact ⟨r, s', es, hload, hlog, fun _ => .inl hfit, fun _ => .inr hin⟩
  by_cases hlong : argumentSize.toNat + 1 < extent argv
  · obtain ⟨r, s', es, hload, hlog, hr, ev, hev, hwritten, hout⟩ := outside_of_extent stack htrans
      (by omega) hfresh hacc hlong
    refine ⟨r, s', es, hload, hlog, ?_, by omega⟩
    rintro (hrefused | hin)
    · exact absurd hrefused hr
    · exact absurd (hin ev hev hwritten) hout
  by_cases hlow : lastAddr s p + 4 ≤ extent argv + argv.length * 4
  · obtain ⟨r, s', es, hload, hlog, hin⟩ := inArea_of_negative stack htrans (by omega) hfresh
      hacc.ne_nil (by omega) hlow
    exact ⟨r, s', es, hload, hlog, fun _ => .inr ⟨by omega, hlow⟩, fun _ => .inr hin⟩
  · obtain ⟨r, s', es, hload, hlog, hr, ev, hev, hwritten, hout⟩ := outside_of_pointers stack htrans
      (by omega) hfresh hacc (by omega) (by omega) (by omega)
    refine ⟨r, s', es, hload, hlog, ?_, by omega⟩
    rintro (hrefused | hin)
    · exact absurd hrefused hr
    · exact absurd (hin ev hev hwritten) hout

/-- One short argument. -/
theorem arguments_in_area_hi :
    ∃ s₀ s r s' es, boot 32 50 (fun _ => 0) = .ok s₀ ∧
      runFrom (VM.step false) s₀ [.exec sevenProgram (fun _ => 0) (fun _ => 0) true] = .ok s ∧
        loadArguments (fun _ _ => 0) 0 [[104, 105]] s = .ok (r, s') ∧ s'.log = es ++ s.log ∧
          (r = .refused ∨ ∀ ev ∈ es, ev.outcome = .written → InArea (lastAddr s 0) ev.request) := by
  obtain ⟨s₀, s, h₀, hs, -, -, hfresh, -⟩ := sevenProgram_fresh
  have hacc : Accepted [[104, 105]] := ⟨by decide, by simp, by simp, by decide⟩
  obtain ⟨-, r, s', es, hload, hlog, hiff⟩ := arguments_in_area_iff (by decide)
    sevenProgram_wellFormed h₀ hs hfresh hacc fun _ _ => 0
  exact ⟨s₀, s, r, s', es, h₀, hs, hload, hlog, hiff.2 (.inl (by decide))⟩

/-- A name of 99 characters and ten arguments of 49. -/
def longArguments : List (List Byte) :=
  List.replicate 99 97 :: List.replicate 10 (List.replicate 49 97)

theorem longArguments_accepted : Accepted longArguments where
  ne_nil := by simp [longArguments]
  first := by simp [longArguments]
  others := by
    intro temp htemp
    rw [List.eq_of_mem_replicate htemp, List.length_replicate]
  argc_lt := by decide

/-- They are stored below the area, and `LoadArguments` does not return 0. -/
theorem longArguments_outside :
    ∃ s₀ s r s' es, boot 32 50 (fun _ => 0) = .ok s₀ ∧
      runFrom (VM.step false) s₀ [.exec sevenProgram (fun _ => 0) (fun _ => 0) true] = .ok s ∧
        Fresh s 0 ∧ Accepted longArguments ∧
          loadArguments (fun _ _ => 0) 0 longArguments s = .ok (r, s') ∧ s'.log = es ++ s.log ∧
            ¬ (r = .refused ∨
              ∀ ev ∈ es, ev.outcome = .written → InArea (lastAddr s 0) ev.request) := by
  obtain ⟨s₀, s, h₀, hs, htrans, hphys, hfresh, -⟩ := sevenProgram_fresh
  obtain ⟨r, s', es, hload, hlog, hr, ev, hev, hwritten, hout⟩ := outside_of_extent (fun _ _ => 0)
    htrans (by rw [hphys]; decide) hfresh longArguments_accepted (by decide)
  refine ⟨s₀, s, r, s', es, h₀, hs, hfresh, longArguments_accepted, hload, hlog, ?_⟩
  rintro (hrefused | hin)
  · exact hr hrefused
  · exact hout (hin ev hev hwritten)

end LoadArguments

end Nachos
