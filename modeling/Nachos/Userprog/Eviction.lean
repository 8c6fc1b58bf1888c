import Nachos.Userprog.CoreMap
import Mathlib.Data.List.TakeWhile

/-!
# Which pages leave the core map

The victim that the scan of `evictCorePage` finds when `LRU == 1`, and what
`CoreMap::evictAll` takes out of the list. The loop of `evictAll` moves both of its pointers
after a deletion, so the page behind a page that it has taken out is not looked at, and it
never moves `tail`.
-/

namespace Nachos

open Lib

namespace CoreMap

variable {m m' : CoreMap} {live : List ℕ}

/-! ## The victim of the scan -/

/-- The virtual pages of a part of the list. -/
def vpages (m : CoreMap) (l : List ℕ) : List VPage := l.map fun q => (m.page q).vpage

theorem cleared_of_notMem {use : VPage → Bool} {passed : List VPage} {v : VPage} (h : v ∉ passed) :
    cleared use passed v = use v := by
  simp [cleared, h]

theorem cleared_of_mem {use : VPage → Bool} {passed : List VPage} {v : VPage} (h : v ∈ passed) :
    cleared use passed v = false := by
  simp [cleared, h]

/-- The scan over pages that are all used; what follows it is what the loop does behind them. -/
theorem evictLoop_used {use : VPage → Bool} (head fuel : ℕ) {travel b : ℕ} {l r : List ℕ}
    {p : Option ℕ} {passed : List VPage} (hpath : Path m.getNext p (travel :: (l ++ r)))
    (hnodup : (passed ++ m.vpages l).Nodup) (hused : ∀ v ∈ m.vpages l, use v = true)
    (hlast : (travel :: l).getLast? = some b) :
    m.evictLoop head (fuel + l.length) (cleared use passed) travel (l ++ r).head? =
      m.evictLoop head fuel (cleared use (passed ++ m.vpages l)) b r.head? := by
  induction l generalizing travel passed p with
  | nil =>
      obtain rfl : travel = b := by simpa using hlast
      simp [vpages]
  | cons a l ih =>
      have hnext : m.getNext travel = some a := by simpa using hpath.2.head_eq
      have hnext' : m.getNext a = (l ++ r).head? := hpath.2.2.head_eq
      have hmap : m.vpages (a :: l) = (m.page a).vpage :: m.vpages l := rfl
      rw [hmap] at hnodup hused ⊢
      have hnot : (m.page a).vpage ∉ passed := fun hmem =>
        (List.nodup_append.1 hnodup).2.2 _ hmem _ List.mem_cons_self rfl
      have huse : cleared use passed (m.page a).vpage = true := by
        rw [cleared_of_notMem hnot]
        exact hused _ List.mem_cons_self
      rw [List.length_cons, ← Nat.add_assoc, List.cons_append, List.head?_cons, evictLoop,
        if_pos huse]
      simp only [hnext, hnext', update_cleared]
      rw [ih hpath.2 (by simpa using hnodup) (fun v hv => hused v (List.mem_cons_of_mem _ hv))
        (by simpa using hlast), List.append_assoc, List.singleton_append]

/-- What `evictCorePage` is to do with `LRU == 1`: the page `p` leaves the list between `l` and `r`.
It is the first page that is not used, and the pages before it have lost their use bits; or all
pages are used, and then it is the first one and all others have lost theirs. -/
structure LruVictim (m : CoreMap) (use use' : VPage → Bool) (p : ℕ) (l r : List ℕ) : Prop where
  clear : (∃ q ∈ l ++ p :: r, use (m.page q).vpage = false) → use (m.page p).vpage = false ∧
    (∀ q ∈ l, use (m.page q).vpage = true ∧ use' (m.page q).vpage = false) ∧
      ∀ q ∈ r, use' (m.page q).vpage = use (m.page q).vpage
  full : (∀ q ∈ l ++ p :: r, use (m.page q).vpage = true) →
    l = [] ∧ ∀ q ∈ r, use' (m.page q).vpage = false

theorem LruVictim.of_head_clear {use : VPage → Bool} {p : ℕ} {r : List ℕ}
    (h : use (m.page p).vpage = false) : m.LruVictim use use p [] r := by
  refine ⟨fun _ => ⟨h, by simp, fun _ _ => rfl⟩, fun hall => ?_⟩
  rw [hall p (by simp)] at h
  cases h

/-- A list splits at its first page that is not used, if there is one. -/
theorem exists_first_clear (use : VPage → Bool) (m : CoreMap) (rest : List ℕ) :
    (∀ q ∈ rest, use (m.page q).vpage = true) ∨ ∃ l p r, rest = l ++ p :: r ∧
      (∀ q ∈ l, use (m.page q).vpage = true) ∧ use (m.page p).vpage = false := by
  induction rest with
  | nil => exact .inl (by simp)
  | cons a rest ih =>
      cases ha : use (m.page a).vpage with
      | false => exact .inr ⟨[], a, rest, rfl, by simp, ha⟩
      | true =>
          rcases ih with hall | ⟨l, p, r, rfl, hl, hp⟩
          · exact .inl (List.forall_mem_cons.2 ⟨ha, hall⟩)
          · exact .inr ⟨a :: l, p, r, rfl, List.forall_mem_cons.2 ⟨ha, hl⟩, hp⟩

theorem update_eq_cleared (use : VPage → Bool) (v : VPage) :
    Function.update use v false = cleared use [v] := by
  have hnil : cleared use [] = use := by
    funext w
    simp [cleared]
  rw [← hnil, update_cleared, List.nil_append, hnil]

/-- `evictCorePage` with `LRU == 1` on two or more pages, the first of which is used, is its loop.
-/
theorem evictCorePage_scan {use : VPage → Bool} {a : ℕ} {rest : List ℕ} (h : m.Rep (a :: rest))
    (hrest : rest ≠ []) (ha : use (m.page a).vpage = true) :
    m.evictCorePage true use = { m with size := m.size - 1 }.evictLoop a m.size
      (cleared use [(m.page a).vpage]) a rest.head? := by
  have hsize : m.size ≠ 0 := by simp [h.size]
  have hhead : m.head = some a := h.head_eq
  have hnext : m.getNext a = rest.head? := h.path.2.head_eq
  have hne := h.head_ne_tail hrest
  rw [hhead] at hne
  simp only [evictCorePage, if_neg hsize, hhead, if_neg hne, Bool.true_eq_false, if_false, ha,
    update_eq_cleared]
  exact congrArg _ hnext

theorem evict_used {use : VPage → Bool} {a : ℕ} {rest : List ℕ} (h : m.Rep (a :: rest))
    (hrest : rest ≠ []) (hdistinct : (m.vpages (a :: rest)).Nodup)
    (hused : ∀ q ∈ a :: rest, use (m.page q).vpage = true) :
    ∃ m', m.evictCorePage true use =
        .ok (some a, cleared use ((m.page a).vpage :: m.vpages rest), m') ∧
      Path m'.getNext m'.head rest := by
  rw [evictCorePage_scan h hrest (hused a List.mem_cons_self)]
  have hall : ∀ v ∈ m.vpages rest, use v = true := by
    intro v hv
    obtain ⟨q, hq, rfl⟩ := List.mem_map.1 hv
    exact hused q (List.mem_cons_of_mem a hq)
  have hnodup : ([(m.page a).vpage] ++ m.vpages rest).Nodup := hdistinct
  obtain ⟨b, hb⟩ : ∃ b, (a :: rest).getLast? = some b := by simp [List.getLast?_cons]
  have hpath : Path m.getNext m.head (a :: (rest ++ [])) := by
    rw [List.append_nil]
    exact h.path
  have hscan := evictLoop_used (m := { m with size := m.size - 1 }) a 1 hpath hnodup hall hb
  rw [List.append_nil, Nat.add_comm, ← List.length_cons (a := a), ← h.size] at hscan
  exact ⟨_, hscan, h.path.2⟩

theorem evict_clear {use : VPage → Bool} {a p : ℕ} {l r : List ℕ} (h : m.Rep (a :: (l ++ p :: r)))
    (hdistinct : (m.vpages (a :: (l ++ p :: r))).Nodup)
    (hused : ∀ q ∈ a :: l, use (m.page q).vpage = true) (hclear : use (m.page p).vpage = false) :
    ∃ m', m.evictCorePage true use = .ok (some p, cleared use (m.vpages (a :: l)), m') ∧
      Path m'.getNext m'.head (a :: l ++ r) := by
  rw [evictCorePage_scan h (by simp) (hused a List.mem_cons_self)]
  have hall : ∀ v ∈ m.vpages l, use v = true := by
    intro v hv
    obtain ⟨q, hq, rfl⟩ := List.mem_map.1 hv
    exact hused q (List.mem_cons_of_mem a hq)
  have hnodup : ([(m.page a).vpage] ++ m.vpages l).Nodup := by
    refine hdistinct.sublist ?_
    simp [vpages]
  have hlen : m.size = r.length + 2 + l.length := by
    have := h.size
    simp only [List.length_cons, List.length_append] at this
    omega
  obtain ⟨init, b, hsplit⟩ := (List.eq_nil_or_concat' (a :: l)).resolve_left (by simp)
  have hscan := evictLoop_used (m := { m with size := m.size - 1 }) (b := b) a (r.length + 2)
    h.path hnodup hall (by simp [hsplit])
  rw [← hlen] at hscan
  have hnot : (m.page p).vpage ∉ m.vpages (a :: l) := by
    have hsplit : m.vpages (a :: (l ++ p :: r)) = m.vpages (a :: l) ++ m.vpages (p :: r) := by
      simp [vpages]
    rw [hsplit] at hdistinct
    exact fun hmem => (List.nodup_append.1 hdistinct).2.2 _ hmem _ List.mem_cons_self rfl
  have huse : cleared use (m.vpages (a :: l)) (m.page p).vpage = false := by
    rw [cleared_of_notMem hnot, hclear]
  refine ⟨{ m with size := m.size - 1 }.setNext b (m.getNext p), ?_, ?_⟩
  · have huse' : ¬ cleared use ([(m.page a).vpage] ++ m.vpages l) (m.page p).vpage = true := by
      simpa [vpages] using huse
    rw [hscan, List.head?_cons, evictLoop]
    exact if_neg huse'
  · have hpath : Path m.getNext m.head (init ++ b :: p :: r) := by
      have := h.path
      rwa [← List.cons_append, hsplit, List.append_assoc] at this
    have hnodup : (init ++ b :: p :: r).Nodup := by
      have := h.nodup
      rwa [← List.cons_append, hsplit, List.append_assoc] at this
    rw [hsplit, List.append_assoc]
    refine hpath.unlink ?_ ?_ ?_
    · intro x hx
      have hne : x ≠ b := by grind
      rw [getNext_setNext, if_neg hne]
      rfl
    · rw [getNext_setNext, if_pos rfl]
    · intro x hx
      have hne : x ≠ b := by grind
      rw [getNext_setNext, if_neg hne]
      rfl

/-- On a core map of any number of pages whose page-table entries are different, `evictCorePage`
with `LRU == 1` takes out the victim and leaves the other pages linked in their order. -/
theorem evictCorePage_lru (m : CoreMap) (live : List ℕ) (h : m.Rep live) (hne : live ≠ [])
    (hdistinct : (m.vpages live).Nodup) (use : VPage → Bool) :
    ∃ p use' m' l r, m.evictCorePage true use = .ok (some p, use', m') ∧ live = l ++ p :: r ∧
      Path m'.getNext m'.head (l ++ r) ∧ m.LruVictim use use' p l r := by
  obtain ⟨a, rest, rfl⟩ := List.exists_cons_of_ne_nil hne
  have hsize : m.size ≠ 0 := by simp [h.size]
  have hhead : m.head = some a := h.head_eq
  by_cases hrest : rest = []
  · subst hrest
    have htail : m.tail = some a := h.tail
    refine ⟨a, use, { m with size := m.size - 1, head := none, tail := none }, [], [], ?_, rfl, rfl,
      ?_⟩
    · simp only [evictCorePage, if_neg hsize, hhead, htail, if_true]
    · exact ⟨fun h => ⟨by simpa using h, by simp, by simp⟩, fun _ => ⟨rfl, by simp⟩⟩
  cases ha : use (m.page a).vpage with
  | false =>
      have hne := h.head_ne_tail hrest
      rw [hhead] at hne
      refine ⟨a, use, { m with size := m.size - 1, head := m.getNext a }, [], rest, ?_,
        rfl, h.path.2,
        .of_head_clear ha⟩
      simp only [evictCorePage, if_neg hsize, hhead, if_neg hne, Bool.true_eq_false, if_false, ha,
        if_true]
      rfl
  | true =>
      rcases exists_first_clear use m rest with hall | ⟨l, p, r, rfl, hl, hp⟩
      · have hused : ∀ q ∈ a :: rest, use (m.page q).vpage = true :=
          List.forall_mem_cons.2 ⟨ha, hall⟩
        obtain ⟨m', heq, hpath⟩ := evict_used h hrest hdistinct hused
        refine ⟨a, _, m', [], rest, heq, rfl, hpath, ?_, fun _ => ⟨rfl, ?_⟩⟩
        · rintro ⟨q, hq, hclear⟩
          rw [hused q hq] at hclear
          cases hclear
        · intro q hq
          exact cleared_of_mem (List.mem_cons_of_mem _ (List.mem_map_of_mem hq))
      · have hused : ∀ q ∈ a :: l, use (m.page q).vpage = true :=
          List.forall_mem_cons.2 ⟨ha, hl⟩
        obtain ⟨m', heq, hpath⟩ := evict_clear h hdistinct hused hp
        refine ⟨p, _, m', a :: l, r, heq, rfl, hpath, fun _ => ⟨hp, ?_, ?_⟩, ?_⟩
        · intro q hq
          exact ⟨hused q hq, cleared_of_mem (List.mem_map_of_mem hq)⟩
        · intro q hq
          refine cleared_of_notMem fun hmem => ?_
          have hsplit : m.vpages (a :: (l ++ p :: r)) = m.vpages (a :: l) ++ m.vpages (p :: r) := by
            simp [vpages]
          rw [hsplit] at hdistinct
          exact (List.nodup_append.1 hdistinct).2.2 _ hmem _
            (List.mem_map_of_mem (List.mem_cons_of_mem p hq)) rfl
        · intro hall
          rw [hall p (by simp)] at hp
          cases hp

/-- Pages 1, 2 and 3 of three processes, each the page 0 of its process. -/
def threePages : CoreMap where
  page := fun q =>
    { next := if q < 3 then some (q + 1) else none
      backingStore := q - 1
      physicalPage := (q - 1 : ℕ)
      virtualPage := 0 }
  head := some 1
  tail := some 3
  size := 3
  capacity := 3

theorem evictCorePage_lru_three :
    ∃ p use' m' l r,
      threePages.evictCorePage true (fun v => v = (0, 0)) = .ok (some p, use', m') ∧
        [1, 2, 3] = l ++ p :: r ∧ Path m'.getNext m'.head (l ++ r) ∧
          threePages.LruVictim (fun v => v = (0, 0)) use' p l r :=
  evictCorePage_lru threePages [1, 2, 3] ⟨⟨rfl, rfl, rfl, rfl⟩, by decide, rfl, rfl⟩ (by decide)
    (by decide) fun v => v = (0, 0)

/-! ## `evictAll` -/

/-- The first loop of `evictAll`. -/
def evictHead (bs : ℕ) : ℕ → CoreMap → BitMap → Except Fault (CoreMap × BitMap)
  | fuel, m, frames =>
      match m.head with
      | none => .ok (m, frames)
      | some head =>
          if (m.page head).backingStore = bs then
            match fuel with
            | 0 => .error .endlessLoop
            | fuel + 1 =>
                match frames.clear (m.page head).physicalPage with
                | .error e => .error e
                | .ok frames' =>
                    evictHead bs fuel { m with head := m.getNext head, size := m.size - 1 } frames'
          else
            .ok (m, frames)

/-- The second loop of `evictAll`. -/
def evictRest (bs : ℕ) :
    ℕ → CoreMap → BitMap → Option ℕ → Option ℕ → Except Fault (CoreMap × BitMap)
  | _, m, frames, _, none => .ok (m, frames)
  | _, _, _, none, some _ => .error .nullPointer
  | 0, _, _, some _, some _ => .error .endlessLoop
  | fuel + 1, m, frames, some travel, some next =>
      if (m.page next).backingStore = bs then
        match frames.clear (m.page next).physicalPage with
        | .error e => .error e
        | .ok frames' =>
            let m' := { m.setNext travel (m.getNext next) with size := m.size - 1 }
            -- `travel` moves to the page behind the one that is gone, and `next` one further
            evictRest bs fuel m' frames' (m'.getNext travel) ((m'.getNext travel).bind m'.getNext)
      else
        evictRest bs fuel m frames (m.getNext travel) (m.getNext next)

/-- `CoreMap::evictAll`, with the bit map of `memoryManager`. -/
def evictAll (m : CoreMap) (frames : BitMap) (bs : ℕ) : Except Fault (CoreMap × BitMap) :=
  match evictHead bs m.size m frames with
  | .error e => .error e
  | .ok (m', frames') =>
      match m'.head with
      | none => .ok ({ m' with tail := none }, frames')
      | some head => evictRest bs m.size m' frames' (some head) (m'.getNext head)

/-- The page belongs to the process that is removed. -/
def owned (m : CoreMap) (bs q : ℕ) : Bool := (m.page q).backingStore = bs

/-- The pages of the other processes, in their order. -/
def others (m : CoreMap) (bs : ℕ) (live : List ℕ) : List ℕ := live.filter fun q => !m.owned bs q

/-- The frames of the pages have been freed, and no others. -/
def Freed (m : CoreMap) (frames : BitMap) (gone : List ℕ) (frames' : BitMap) : Prop :=
  frames'.numBits = frames.numBits ∧ ∀ f : ℕ, frames'.bit f = true ↔
    frames.bit f = true ∧ ∀ q ∈ gone, (m.page q).physicalPage ≠ f

/-- The pages have frames that exist. -/
def Framed (m : CoreMap) (frames : BitMap) (live : List ℕ) : Prop :=
  ∀ q ∈ live, ∃ f : ℕ, (m.page q).physicalPage = f ∧ f < frames.numBits

/-- What `evictAll` is to leave. -/
structure EvictedAll (m : CoreMap) (live : List ℕ) (frames : BitMap) (bs : ℕ) (m' : CoreMap)
    (frames' : BitMap) : Prop where
  path : Path m'.getNext m'.head (m.others bs live)
  size : m'.size = (m.others bs live).length
  tail : m'.tail = (m.others bs live).getLast?
  frames : m.Freed frames (live.filter (m.owned bs)) frames'

/-- Behind the pages of the process at the head of the list no two of its pages are neighbours, and
the last page of the list is not one of them. -/
def Scattered (m : CoreMap) (bs : ℕ) (live : List ℕ) : Prop :=
  Sparse (m.owned bs) (live.dropWhile (m.owned bs)) ∧
    ∀ t ∈ (live.dropWhile (m.owned bs)).getLast?, m.owned bs t = false

instance (m : CoreMap) (bs : ℕ) (live : List ℕ) : Decidable (m.Scattered bs live) :=
  inferInstanceAs (Decidable (_ ∧ _))

theorem owned_iff {bs q : ℕ} : m.owned bs q = true ↔ (m.page q).backingStore = bs := by
  simp [owned]

theorem Freed.nil (m : CoreMap) (frames : BitMap) : m.Freed frames [] frames := by
  simp [Freed]

theorem Freed.cons {frames frames₁ frames' : BitMap} {q f : ℕ} {gone : List ℕ}
    (hq : (m.page q).physicalPage = f) (hbits : frames₁.numBits = frames.numBits)
    (hclear : ∀ g, frames₁.bit g = (!decide (g = f) && frames.bit g))
    (h : m.Freed frames₁ gone frames') : m.Freed frames (q :: gone) frames' := by
  refine ⟨h.1.trans hbits, fun g => ?_⟩
  have hne : (f : ℤ) ≠ g ↔ g ≠ f := by omega
  rw [h.2, hclear]
  simp only [Bool.and_eq_true, Bool.not_eq_true', decide_eq_false_iff_not, List.forall_mem_cons, hq,
    hne]
  tauto

theorem owned_congr (h : SamePages m m') (bs : ℕ) : m'.owned bs = m.owned bs := by
  funext q
  have hbs : (m'.page q).backingStore = (m.page q).backingStore := congrArg Prod.fst (h.2 q).1
  simp [owned, hbs]

theorem Freed.congr {frames frames' : BitMap} {gone : List ℕ} (hsame : SamePages m m')
    (h : m'.Freed frames gone frames') : m.Freed frames gone frames' := by
  refine ⟨h.1, fun f => ?_⟩
  rw [h.2]
  simp only [(hsame.2 _).2]

theorem evictHead_spec (bs : ℕ) (frames : BitMap) {fuel : ℕ} (hpath : Path m.getNext m.head live)
    (hfuel : live.length ≤ fuel) (hframed : m.Framed frames live) :
    ∃ frames', evictHead bs fuel m frames = .ok ({ m with
        head := (live.dropWhile (m.owned bs)).head?
        size := m.size - (live.takeWhile (m.owned bs)).length }, frames') ∧
      m.Freed frames (live.takeWhile (m.owned bs)) frames' := by
  induction live generalizing m frames fuel with
  | nil =>
      have hhead : m.head = none := hpath
      have hm : m = { m with head := none } := by rw [← hhead]
      refine ⟨frames, ?_, .nil m frames⟩
      rw [evictHead, hhead]
      exact congrArg (fun m => Except.ok (m, frames)) hm
  | cons a live ih =>
      have hhead : m.head = some a := hpath.1
      by_cases ha : (m.page a).backingStore = bs
      · have hown : m.owned bs a = true := by simp [owned, ha]
        cases fuel with
        | zero => simp at hfuel
        | succ fuel =>
            obtain ⟨f, hf, hlt⟩ := hframed a List.mem_cons_self
            obtain ⟨frames₁, hclear, hbits, hbit⟩ := BitMap.clear_spec hlt
            obtain ⟨frames', hrest, hfreed⟩ := ih
              (m := { m with head := m.getNext a, size := m.size - 1 }) frames₁ hpath.2
              (by simpa using hfuel) (fun q hq => by
                obtain ⟨g, hg, hglt⟩ := hframed q (List.mem_cons_of_mem a hq)
                exact ⟨g, hg, by rwa [hbits]⟩)
            have hsame : ({ m with head := m.getNext a, size := m.size - 1 } : CoreMap).owned bs =
                m.owned bs := rfl
            rw [hsame] at hrest hfreed
            refine ⟨frames', ?_, ?_⟩
            · rw [evictHead]
              simp only [hhead, ha, if_true, hf, hclear]
              rw [hrest, List.dropWhile_cons_of_pos hown, List.takeWhile_cons_of_pos hown]
              simp only [List.length_cons, Nat.sub_sub, Nat.add_comm 1]
            · rw [List.takeWhile_cons_of_pos hown]
              exact Freed.cons hf hbits hbit hfreed
      · have hown : ¬ m.owned bs a = true := by simp [owned, ha]
        rw [List.dropWhile_cons_of_neg hown, List.takeWhile_cons_of_neg hown]
        refine ⟨frames, ?_, .nil m frames⟩
        have hm : m = { m with head := some a } := by rw [← hhead]
        rw [evictHead, hhead]
        simp only [if_neg ha]
        exact congrArg (fun m => Except.ok (m, frames)) hm

/-- The page behind `travel` has been unlinked and counted. -/
def unlinked (m : CoreMap) (travel a : ℕ) : CoreMap :=
  { m.setNext travel (m.getNext a) with size := m.size - 1 }

theorem samePages_unlinked (m : CoreMap) (travel a : ℕ) : SamePages m (m.unlinked travel a) :=
  samePages_setNext m travel (m.getNext a)

theorem path_unlinked {travel a : ℕ} {pre l : List ℕ}
    (hpath : Path m.getNext m.head (pre ++ travel :: a :: l))
    (hnodup : (pre ++ travel :: a :: l).Nodup) :
    Path (m.unlinked travel a).getNext (m.unlinked travel a).head (pre ++ travel :: l) := by
  refine hpath.unlink ?_ ?_ ?_
  · intro x hx
    have hne : x ≠ travel := by grind
    exact (getNext_setNext m travel x _).trans (if_neg hne)
  · exact (getNext_setNext m travel travel _).trans (if_pos rfl)
  · intro x hx
    have hne : x ≠ travel := by grind
    exact (getNext_setNext m travel x _).trans (if_neg hne)

/-- One turn of the second loop that frees a page. -/
theorem evictRest_owned (fuel travel : ℕ) {bs a : ℕ} {frames : BitMap}
    (ha : (m.page a).backingStore = bs)
    (hframed : ∃ f : ℕ, (m.page a).physicalPage = f ∧ f < frames.numBits) :
    ∃ frames', evictRest bs (fuel + 1) m frames (some travel) (some a) =
        evictRest bs fuel (m.unlinked travel a) frames' ((m.unlinked travel a).getNext travel)
          (((m.unlinked travel a).getNext travel).bind (m.unlinked travel a).getNext) ∧
      frames'.numBits = frames.numBits ∧
        ∀ gone frames'', m.Freed frames' gone frames'' → m.Freed frames (a :: gone) frames'' := by
  obtain ⟨f, hf, hlt⟩ := hframed
  obtain ⟨frames', hclear, hbits, hbit⟩ := BitMap.clear_spec hlt
  refine ⟨frames', ?_, hbits, fun gone frames'' h => h.cons hf hbits hbit⟩
  rw [evictRest, if_pos ha, hf, hclear]
  rfl

/-- The second loop leaves what a deletion that skips leaves, and `tail` as it was. -/
theorem evictRest_spec (bs : ℕ) {frames : BitMap} {out : ℕ → Bool} {travel : ℕ} {pre rest : List ℕ}
    {fuel : ℕ} (hout : m.owned bs = out) (hpath : Path m.getNext m.head (pre ++ travel :: rest))
    (hnodup : (pre ++ travel :: rest).Nodup) (hfuel : rest.length ≤ fuel)
    (hframed : m.Framed frames rest) :
    ∃ m' frames', evictRest bs fuel m frames (some travel) rest.head? = .ok (m', frames') ∧
      Path m'.getNext m'.head (pre ++ travel :: skipping out rest) ∧
        m'.size = m.size - (taken out rest).length ∧ m'.tail = m.tail ∧
          m.Freed frames (taken out rest) frames' := by
  induction rest using skipping.induct out generalizing m frames travel pre fuel with
  | case1 =>
      refine ⟨m, frames, ?_, hpath, rfl, rfl, .nil m frames⟩
      cases fuel <;> rfl
  | case2 a ha =>
      cases fuel with
      | zero => simp at hfuel
      | succ fuel =>
          obtain ⟨frames', hstep, -, hfreed⟩ := evictRest_owned fuel travel
            (owned_iff.1 (hout ▸ ha)) (hframed a List.mem_cons_self)
          have hpath' := path_unlinked hpath hnodup
          rw [hpath'.next_eq] at hstep
          refine ⟨m.unlinked travel a, frames', hstep.trans (by cases fuel <;> rfl), ?_,
            ?_, rfl, ?_⟩
          · simpa only [skipping, ha, if_true] using hpath'
          · simp only [taken, ha, if_true]
            rfl
          · simpa only [taken, ha, if_true] using hfreed [] frames' (.nil m frames')
  | case3 a ha =>
      cases fuel with
      | zero => simp at hfuel
      | succ fuel =>
          have hown : (m.page a).backingStore ≠ bs := fun h => ha (hout ▸ owned_iff.2 h)
          have hnext : m.getNext a = none := by
            have hpath' : Path m.getNext m.head ((pre ++ [travel]) ++ [a]) := by simpa using hpath
            exact hpath'.next_eq
          refine ⟨m, frames, ?_, ?_, ?_, rfl, ?_⟩
          · rw [List.head?_cons, evictRest, if_neg hown, hnext]
            cases fuel <;> rfl
          · simpa only [skipping, ha, Bool.false_eq_true, if_false] using hpath
          · simp [taken, ha]
          · simpa only [taken, ha, Bool.false_eq_true, if_false] using Freed.nil m frames
  | case4 a b l ha ih =>
      cases fuel with
      | zero => simp at hfuel
      | succ fuel =>
          obtain ⟨frames₁, hstep, hbits, hfreed⟩ := evictRest_owned fuel travel
            (owned_iff.1 (hout ▸ ha)) (hframed a List.mem_cons_self)
          have hpath₁ := path_unlinked hpath hnodup
          have hpath₂ : Path (m.unlinked travel a).getNext (m.unlinked travel a).head
              ((pre ++ [travel]) ++ b :: l) := by
            simpa using hpath₁
          have hsame := samePages_unlinked m travel a
          have hnodup₂ : ((pre ++ [travel]) ++ b :: l).Nodup := by
            refine hnodup.sublist ?_
            simp
          have hframed₂ : (m.unlinked travel a).Framed frames₁ l := by
            intro q hq
            obtain ⟨f, hf, hlt⟩ := hframed q (by simp [hq])
            exact ⟨f, (hsame.2 q).2.trans hf, by rwa [hbits]⟩
          have hfuel₂ : l.length ≤ fuel := by
            simp only [List.length_cons] at hfuel
            omega
          rw [hpath₁.next_eq, List.head?_cons, Option.bind_some, hpath₂.next_eq] at hstep
          obtain ⟨m', frames', hrest, hpath', hsize, htail, hfreed'⟩ :=
            ih ((owned_congr hsame bs).trans hout) hpath₂ hnodup₂ hfuel₂ hframed₂
          refine ⟨m', frames', hstep.trans hrest, ?_, ?_, htail, ?_⟩
          · simpa only [skipping, ha, if_true, List.append_assoc, List.singleton_append]
              using hpath'
          · simp only [taken, ha, if_true, List.length_cons, hsize, unlinked]
            omega
          · simpa only [taken, ha, if_true] using hfreed _ _ (hfreed'.congr hsame)
  | case5 a b l ha ih =>
      cases fuel with
      | zero => simp at hfuel
      | succ fuel =>
          have hown : (m.page a).backingStore ≠ bs := fun h => ha (hout ▸ owned_iff.2 h)
          have hpath' : Path m.getNext m.head ((pre ++ [travel]) ++ a :: b :: l) := by
            simpa using hpath
          obtain ⟨m', frames', hrest, hpath'', hsize, htail, hfreed⟩ :=
            ih hout hpath' (by simpa using hnodup) (by simpa using hfuel)
              fun q hq => hframed q (List.mem_cons_of_mem a hq)
          refine ⟨m', frames', ?_, ?_, ?_, htail, ?_⟩
          · rw [List.head?_cons, evictRest, if_neg hown, hpath.next_eq, List.head?_cons,
              hpath'.next_eq, hrest]
          · simpa only [skipping, ha, Bool.false_eq_true, if_false, List.append_assoc,
              List.singleton_append] using hpath''
          · simpa only [taken, ha, Bool.false_eq_true, if_false] using hsize
          · simpa only [taken, ha, Bool.false_eq_true, if_false] using hfreed

theorem Freed.append {frames frames₁ frames' : BitMap} {gone gone' : List ℕ}
    (h : m.Freed frames gone frames₁) (h' : m.Freed frames₁ gone' frames') :
    m.Freed frames (gone ++ gone') frames' := by
  refine ⟨h'.1.trans h.1, fun f => ?_⟩
  rw [h'.2, h.2]
  simp only [List.forall_mem_append]
  tauto

/-- The pages of the process at the head are the whole list. -/
theorem evictAll_of_all (h : m.Rep live) {frames : BitMap} (hframed : m.Framed frames live) {bs : ℕ}
    (hrest : live.dropWhile (m.owned bs) = []) :
    ∃ m' frames', m.evictAll frames bs = .ok (m', frames') ∧ m'.head = none ∧ m'.size = 0 ∧
      m'.tail = none ∧ m.Freed frames live frames' := by
  obtain ⟨frames', heq, hfreed⟩ := evictHead_spec bs frames h.path h.size.ge hframed
  have hgone : live.takeWhile (m.owned bs) = live := by
    have := List.takeWhile_append_dropWhile (p := m.owned bs) (l := live)
    rwa [hrest, List.append_nil] at this
  rw [hrest, hgone, ← h.size, Nat.sub_self] at heq
  rw [hgone] at hfreed
  exact ⟨_, frames', by simp only [evictAll, heq, List.head?_nil]; rfl, rfl, rfl, rfl, hfreed⟩

/-- There is a page of another process: the second loop walks from the first of them. -/
theorem evictAll_of_rest (h : m.Rep live) {frames : BitMap}
    (hframed : m.Framed frames live) {bs a : ℕ}
    {l : List ℕ} (hrest : live.dropWhile (m.owned bs) = a :: l) :
    ∃ m' frames', m.evictAll frames bs = .ok (m', frames') ∧
      Path m'.getNext m'.head (a :: skipping (m.owned bs) l) ∧
        m'.size = m.size - (live.takeWhile (m.owned bs)).length - (taken (m.owned bs) l).length ∧
          m'.tail = m.tail ∧
            m.Freed frames (live.takeWhile (m.owned bs) ++ taken (m.owned bs) l) frames' := by
  have hlive : live.takeWhile (m.owned bs) ++ a :: l = live := by
    rw [← hrest]
    exact List.takeWhile_append_dropWhile
  obtain ⟨frames₁, heq, hfreed₁⟩ := evictHead_spec bs frames h.path h.size.ge hframed
  rw [hrest, List.head?_cons] at heq
  have hpath := h.path
  rw [← hlive] at hpath
  have hnext : m.getNext a = l.head? := hpath.suffix.2.head_eq
  have hlen : l.length ≤ m.size := by
    rw [h.size, ← hlive]
    simp only [List.length_append, List.length_cons]
    omega
  have hnodup : ([] ++ a :: l).Nodup := by
    refine h.nodup.sublist ?_
    rw [List.nil_append, ← hrest]
    exact List.dropWhile_sublist _
  have hframed₁ : m.Framed frames₁ l := by
    intro q hq
    obtain ⟨f, hf, hlt⟩ := hframed q (by rw [← hlive]; simp [hq])
    exact ⟨f, hf, by rwa [hfreed₁.1]⟩
  have hsuffix : Path m.getNext (some a) ([] ++ a :: l) := hpath.suffix
  obtain ⟨m', frames', hrest', hpath', hsize, htail, hfreed⟩ := evictRest_spec
    (m := { m with head := some a, size := m.size - (live.takeWhile (m.owned bs)).length }) bs rfl
    hsuffix hnodup hlen hframed₁
  refine ⟨m', frames', ?_, hpath', hsize, htail, hfreed₁.append hfreed⟩
  simp only [evictAll, heq]
  rw [← hrest', ← hnext]
  rfl

theorem getLast?_filter_of_last {β : Type*} {p : β → Bool} {a : β} {l : List β}
    (hlast : ∀ t ∈ (a :: l).getLast?, p t = true) :
    (a :: l.filter p).getLast? = (a :: l).getLast? := by
  rcases List.eq_nil_or_concat' l with rfl | ⟨init, t, rfl⟩
  · rfl
  · have ht : p t = true := hlast t (by simp [List.getLast?_cons])
    simp [List.filter_append, ht, List.getLast?_cons]

/-- `evictAll` removes a process completely when its pages are scattered behind those at the head of
the list, and only then: of two neighbours the second stays, and when the last page of the list
goes, `tail` still points to it. -/
theorem evictAll_iff (m : CoreMap) (live : List ℕ) (h : m.Rep live) (frames : BitMap)
    (hframed : m.Framed frames live) (bs : ℕ) :
    (∃ m' frames', m.evictAll frames bs = .ok (m', frames') ∧
      m.EvictedAll live frames bs m' frames') ↔ m.Scattered bs live := by
  have hlive := List.takeWhile_append_dropWhile (p := m.owned bs) (l := live)
  have hgone : ∀ q ∈ live.takeWhile (m.owned bs), m.owned bs q = true := fun q hq =>
    List.mem_takeWhile_imp hq
  cases hrest : live.dropWhile (m.owned bs) with
  | nil =>
      rw [hrest, List.append_nil] at hlive
      have hall : ∀ q ∈ live, m.owned bs q = true := hlive ▸ hgone
      have hnone : m.others bs live = [] := by
        simp only [others, List.filter_eq_nil_iff, Bool.not_eq_true', Bool.not_eq_false]
        exact hall
      obtain ⟨m', frames', hok, hhead, hsize, htail, hfreed⟩ := evictAll_of_all h hframed hrest
      refine iff_of_true ⟨m', frames', hok, ?_, ?_, ?_, ?_⟩ ?_
      · rw [hnone, hhead]
        rfl
      · rw [hnone, hsize, List.length_nil]
      · rw [hnone, htail, List.getLast?_nil]
      · rwa [List.filter_eq_self.2 hall]
      · simp [Scattered, hrest, Sparse]
  | cons a l =>
      rw [hrest] at hlive
      have ha : m.owned bs a = false := by
        have := List.head_dropWhile_not (m.owned bs) (l := live) (by simp [hrest])
        simpa [hrest] using this
      have hothers : m.others bs live = a :: l.filter fun q => !m.owned bs q := by
        have hnil : (live.takeWhile (m.owned bs)).filter (fun q => !m.owned bs q) = [] := by
          simp only [List.filter_eq_nil_iff, Bool.not_eq_true', Bool.not_eq_false]
          exact hgone
        rw [others, ← hlive, List.filter_append, hnil, List.nil_append, List.filter_cons_of_pos]
        simpa using ha
      have howned : live.filter (m.owned bs) =
          live.takeWhile (m.owned bs) ++ l.filter (m.owned bs) := by
        conv_lhs => rw [← hlive]
        rw [List.filter_append, List.filter_eq_self.2 hgone, List.filter_cons_of_neg (by simp [ha])]
      have hsparse : Sparse (m.owned bs) (a :: l) ↔ Sparse (m.owned bs) l := by
        unfold Sparse
        cases l <;> simp [List.isChain_cons_cons, ha]
      have hlast : m.tail = (a :: l).getLast? := by
        rw [h.tail, ← hlive, List.getLast?_append_of_ne_nil _ (List.cons_ne_nil a l)]
      obtain ⟨m', frames', hok, hpath, hsize, htail, hfreed⟩ := evictAll_of_rest h hframed hrest
      have hscattered : m.Scattered bs live ↔ Sparse (m.owned bs) l ∧
          ∀ t ∈ (a :: l).getLast?, m.owned bs t = false := by
        rw [Scattered, hrest, hsparse]
      rw [hscattered]
      constructor
      · rintro ⟨m'', frames'', hok', hall⟩
        rw [hok] at hok'
        cases hok'
        have hskip := hpath.unique (hothers ▸ hall.path)
        refine ⟨(skipping_eq_filter_iff l).1 (List.cons.inj hskip).2, fun t ht => ?_⟩
        -- `tail` has not moved, so the last page is one of those that are left
        have hmem : t ∈ m.others bs live := by
          refine List.mem_of_getLast? ?_
          rw [← hall.tail, htail, hlast]
          exact ht
        simpa [others] using (List.mem_filter.1 hmem).2
      · rintro ⟨hapart, hend⟩
        refine ⟨m', frames', hok, ?_, ?_, ?_, ?_⟩
        · rwa [hothers, ← (skipping_eq_filter_iff l).2 hapart]
        · have hlen := l.length_eq_length_filter_add (m.owned bs)
          have htotal : live.length = (live.takeWhile (m.owned bs)).length + (l.length + 1) := by
            conv_lhs => rw [← hlive]
            simp
          rw [hsize, hothers, taken_eq_filter hapart, h.size, List.length_cons]
          omega
        · rw [htail, hothers, hlast, getLast?_filter_of_last]
          simpa using hend
        · rw [howned, ← taken_eq_filter hapart]
          exact hfreed

def threeFrames : BitMap where
  numBits := 3
  map := fun _ => 7#32

theorem framed_three (h : ∀ q, (m.page q).physicalPage = (q - 1 : ℕ)) :
    m.Framed threeFrames [1, 2, 3] := by
  intro q hq
  have hlt : ∀ q ∈ [1, 2, 3], q - 1 < 3 := by decide
  exact ⟨q - 1, h q, hlt q hq⟩

/-- The process 1 has the page in the middle of the list. -/
theorem evictAll_iff_three :
    ∃ m' frames', threePages.evictAll threeFrames 1 = .ok (m', frames') ∧
      threePages.EvictedAll [1, 2, 3] threeFrames 1 m' frames' :=
  (evictAll_iff threePages [1, 2, 3] ⟨⟨rfl, rfl, rfl, rfl⟩, by decide, rfl, rfl⟩ threeFrames
    (framed_three fun _ => rfl) 1).2 (by decide)

/-- The pages 2 and 3 belong to the process 1, and the page 1 to the process 0. -/
def neighbours : CoreMap :=
  { threePages with
    page := fun q =>
      { threePages.page q with
        backingStore := min (q - 1) 1
        virtualPage := q } }

/-- The second of the two pages stays in the list, and its frame is not freed. -/
theorem evictAll_leaves_neighbour :
    neighbours.Rep [1, 2, 3] ∧ neighbours.Framed threeFrames [1, 2, 3] ∧
      ¬ ∃ m' frames', neighbours.evictAll threeFrames 1 = .ok (m', frames') ∧
        neighbours.EvictedAll [1, 2, 3] threeFrames 1 m' frames' := by
  refine ⟨⟨⟨rfl, rfl, rfl, rfl⟩, by decide, rfl, rfl⟩, framed_three fun _ => rfl, ?_⟩
  · rintro ⟨m', frames', hok, hall⟩
    have hrun : (neighbours.evictAll threeFrames 1).toOption.map (fun r => r.1.size) = some 2 := by
      decide +kernel
    rw [hok] at hrun
    have hsize : m'.size = 2 := Option.some.inj hrun
    have := hall.size
    rw [hsize] at this
    exact absurd this (by decide)

end CoreMap

end Nachos
