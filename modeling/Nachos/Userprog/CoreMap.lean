import Nachos.Lib.Run
import Nachos.Lib.Chain
import Nachos.Userprog.BitMap
import Mathlib.Data.List.Nodup

/-!
# The core map

`CoreMap` of `addrspace.cc`: a singly linked list of the pages in physical memory,
in the order in which they were added, with pointers to both ends and a counter. A
`CorePage *` is a number and the pages stand in a heap. The use bits are those of
the page tables, so two pages of the same virtual page share one.

`Rep` is the representation invariant. It is kept by every call but one:
`evictCorePage` with `LRU == 1` that unlinks the last page of two or more does not
move `tail`.
-/

namespace Nachos

open Lib

/-- A virtual page: the backing store (one for each address space) and the page
number. -/
abbrev VPage := ℕ × ℕ

structure CorePage where
  next : Option ℕ
  backingStore : ℕ
  physicalPage : ℤ
  virtualPage : ℕ

/-- The constructor of `CorePage`. -/
def CorePage.new (bs : ℕ) (physPage : ℤ) (virtPage : ℕ) : CorePage where
  next := none
  backingStore := bs
  physicalPage := physPage
  virtualPage := virtPage

/-- The virtual page whose use bit `evictCorePage` looks at. -/
def CorePage.vpage (p : CorePage) : VPage := (p.backingStore, p.virtualPage)

structure CoreMap where
  /-- The `CorePage` objects. -/
  page : ℕ → CorePage
  head : Option ℕ
  tail : Option ℕ
  size : ℕ
  capacity : ℕ

namespace CoreMap

/-- The constructor of `CoreMap`. -/
def new (physPages : ℕ) : CoreMap where
  page := fun _ => .new 0 0 0
  head := none
  tail := none
  size := 0
  capacity := physPages

def isFull (m : CoreMap) : Bool := m.size = m.capacity

/-- `new CorePage(..)` at the address `p`. -/
def alloc (m : CoreMap) (p : ℕ) (corePage : CorePage) : CoreMap :=
  { m with page := Function.update m.page p corePage }

/-- `p->setNext(corePage)`. -/
def setNext (m : CoreMap) (p : ℕ) (corePage : Option ℕ) : CoreMap :=
  { m with page := Function.update m.page p { m.page p with next := corePage } }

/-- `p->getNext()`. -/
def getNext (m : CoreMap) (p : ℕ) : Option ℕ := (m.page p).next

/-- `CoreMap::addCorePage`: the error code and the new state. -/
def addCorePage (m : CoreMap) (corePage : ℕ) : Except Fault (ℤ × CoreMap) :=
  if m.size = m.capacity then
    .ok (1, m)
  else
    match m.head with
    | none => .ok (0, { m with size := m.size + 1, head := some corePage, tail := some corePage })
    | some _ =>
        match m.tail with
        | none => .error .nullPointer
        | some t =>
            let m' := { m with size := m.size + 1 }.setNext t (some corePage)
            .ok (0, { m' with tail := m'.getNext t })

/-- The loop of `evictCorePage`, with the page `head` that is evicted when no use bit
is clear. -/
def evictLoop (m : CoreMap) (head : ℕ) :
    ℕ → (VPage → Bool) → ℕ → Option ℕ → Except Fault (Option ℕ × (VPage → Bool) × CoreMap)
  | _, use, _, none => .ok (some head, use, { m with head := m.getNext head })
  | 0, _, _, some _ => .error .endlessLoop
  | fuel + 1, use, travel, some next =>
      if use (m.page next).vpage then
        match m.getNext travel with
        | none => .error .nullPointer
        | some travel' =>
            evictLoop m head fuel (Function.update use (m.page next).vpage false) travel'
              (m.getNext next)
      else
        .ok (some next, use, m.setNext travel (m.getNext next))

/-- `CoreMap::evictCorePage`: the page, the use bits and the new state. -/
def evictCorePage (lru : Bool) (use : VPage → Bool) (m : CoreMap) :
    Except Fault (Option ℕ × (VPage → Bool) × CoreMap) :=
  if m.size = 0 then
    .ok (none, use, m)
  else
    let m' := { m with size := m.size - 1 }
    if m'.head = m'.tail then
      .ok (m'.head, use, { m' with head := none, tail := none })
    else
      match m'.head with
      | none => .error .nullPointer
      | some head =>
          if lru = false then
            .ok (some head, use, { m' with head := m'.getNext head })
          else if use (m'.page head).vpage = false then
            .ok (some head, use, { m' with head := m'.getNext head })
          else
            m'.evictLoop head m.size (Function.update use (m'.page head).vpage false) head
              (m'.getNext head)

/-- The list of the core map is `live`: the pages that have been added and not
evicted, in the order in which they were added. -/
structure Rep (m : CoreMap) (live : List ℕ) : Prop where
  path : Path m.getNext m.head live
  nodup : live.Nodup
  size : m.size = live.length
  tail : m.tail = live.getLast?

variable {m m' : CoreMap} {live : List ℕ}

@[simp] theorem getNext_setNext (m : CoreMap) (p q : ℕ) (n : Option ℕ) :
    (m.setNext p n).getNext q = if q = p then n else m.getNext q := by
  by_cases h : q = p
  · subst h
    simp [setNext, getNext]
  · simp [setNext, getNext, h]

@[simp] theorem vpage_setNext (m : CoreMap) (p q : ℕ) (n : Option ℕ) :
    ((m.setNext p n).page q).vpage = (m.page q).vpage := by
  by_cases h : q = p
  · subst h
    simp [setNext, CorePage.vpage]
  · simp [setNext, h]

/-- Only the links of the pages differ. -/
def SamePages (m m' : CoreMap) : Prop :=
  m'.capacity = m.capacity ∧ ∀ q, (m'.page q).vpage = (m.page q).vpage ∧
    (m'.page q).physicalPage = (m.page q).physicalPage

theorem samePages_setNext (m : CoreMap) (p : ℕ) (n : Option ℕ) : SamePages m (m.setNext p n) := by
  refine ⟨rfl, fun q => ⟨vpage_setNext m p q n, ?_⟩⟩
  by_cases h : q = p
  · subst h
    simp [setNext]
  · simp [setNext, h]

theorem Rep.new (physPages : ℕ) : (CoreMap.new physPages).Rep [] :=
  ⟨rfl, .nil, rfl, rfl⟩

theorem Rep.head_eq (h : m.Rep live) : m.head = live.head? := h.path.head_eq

theorem Rep.alloc (h : m.Rep live) {p : ℕ} (hp : p ∉ live) (c : CorePage) :
    (m.alloc p c).Rep live := by
  refine ⟨h.path.congr ?_, h.nodup, h.size, h.tail⟩
  intro a ha
  have hne : a ≠ p := by
    rintro rfl
    exact hp ha
  simp [CoreMap.alloc, getNext, hne]

/-- A page that is not in the map and points nowhere is added at the end. -/
theorem Rep.add (h : m.Rep live) {p : ℕ} (hp : p ∉ live) (hnext : m.getNext p = none) :
    ∃ m', m.addCorePage p = .ok (if m.isFull then 1 else 0, m') ∧
      m'.Rep (if m.isFull then live else live ++ [p]) ∧ SamePages m m' := by
  unfold addCorePage isFull
  by_cases hfull : m.size = m.capacity
  · exact ⟨m, by simp [hfull], by simpa [hfull] using h, rfl, fun _ => ⟨rfl, rfl⟩⟩
  · simp only [hfull, if_false, decide_false, Bool.false_eq_true]
    rcases List.eq_nil_or_concat' live with rfl | ⟨l, t, rfl⟩
    · have hhead : m.head = none := h.head_eq
      rw [hhead]
      refine ⟨_, rfl, ⟨⟨rfl, hnext⟩, by simp, ?_, rfl⟩, rfl, fun _ => ⟨rfl, rfl⟩⟩
      have := h.size
      simp_all
    · have htail : m.tail = some t := by simpa using h.tail
      have hne : ∀ x ∈ l, x ≠ t := by
        intro x hx
        have := h.nodup
        grind
      obtain ⟨x, hx⟩ : ∃ x, m.head = some x := by
        rw [h.head_eq]
        cases l <;> simp
      simp only [hx, htail]
      have hpt : p ≠ t := by
        rintro rfl
        simp at hp
      refine ⟨_, rfl, ⟨?_, ?_, ?_, ?_⟩, rfl, (samePages_setNext m t (some p)).2⟩
      · rw [List.append_assoc]
        refine Path.snoc (hx ▸ h.path) ?_ ?_ ?_
        · intro x hx
          simp [getNext, setNext, hne x hx]
        · simp [getNext, setNext]
        · simpa [getNext, setNext, hpt] using hnext
      · exact h.nodup.append (by simp) (by simpa using hp)
      · simpa [setNext] using h.size
      · simp [getNext, setNext]

/-- The use bits after the scan of `evictCorePage` has passed the pages. -/
def cleared (use : VPage → Bool) (passed : List VPage) (v : VPage) : Bool :=
  use v && !(passed.contains v)

/-- The scan of `evictCorePage` finds every use bit set but that of the last page. -/
def TailVictim (use : VPage → Bool) (vs : List VPage) : Prop :=
  vs.dropLast ≠ [] ∧ vs.dropLast.Nodup ∧ (∀ w ∈ vs.dropLast, use w = true) ∧
    ∀ v ∈ vs.getLast?, use v = false ∨ v ∈ vs.dropLast

instance (use : VPage → Bool) (vs : List VPage) : Decidable (TailVictim use vs) :=
  inferInstanceAs (Decidable (_ ∧ _))

theorem update_cleared (use : VPage → Bool) (passed : List VPage) (v : VPage) :
    Function.update (cleared use passed) v false = cleared use (passed ++ [v]) := by
  funext w
  by_cases hw : w = v
  · subst hw
    simp [cleared]
  · simp [cleared, hw]

/-- What the loop of `evictCorePage` does to a list: it takes the first page, or
unlinks another one, and this is the last one only when all bits before it are set. -/
theorem evictLoop_spec {use : VPage → Bool} (head : ℕ) {travel : ℕ} {pre rest : List ℕ} {fuel : ℕ}
    (hpath : Path m.getNext m.head (pre ++ travel :: rest)) (hfuel : rest.length ≤ fuel)
    (hnodup : ((pre ++ [travel]).map fun q => (m.page q).vpage).Nodup)
    (hused : ∀ v ∈ (pre ++ [travel]).map fun q => (m.page q).vpage, use v = true) :
    ∃ p use' m', m.evictLoop head fuel
        (cleared use ((pre ++ [travel]).map fun q => (m.page q).vpage)) travel rest.head? =
          .ok (some p, use', m') ∧
      ((p = head ∧ m' = { m with head := m.getNext head }) ∨
        ∃ l a r, pre ++ travel :: rest = l ++ a :: p :: r ∧ m' = m.setNext a (m.getNext p) ∧
          (r = [] → TailVictim use ((pre ++ travel :: rest).map fun q => (m.page q).vpage))) := by
  induction rest generalizing pre travel fuel with
  | nil =>
      exact ⟨head, cleared use ((pre ++ [travel]).map fun q => (m.page q).vpage),
        { m with head := m.getNext head }, by cases fuel <;> rfl, .inl ⟨rfl, rfl⟩⟩
  | cons x rest ih =>
      cases fuel with
      | zero => simp at hfuel
      | succ fuel =>
          have hx : m.getNext travel = some x := by simpa using hpath.next_eq
          have hpath' : Path m.getNext m.head ((pre ++ [travel]) ++ x :: rest) := by
            simpa using hpath
          simp only [List.head?_cons, evictLoop]
          split
          · rename_i hu
            simp only [cleared, Bool.and_eq_true, Bool.not_eq_true', List.contains_eq_mem,
              decide_eq_false_iff_not] at hu
            rw [hx, update_cleared, hpath'.next_eq]
            have hmap : ((pre ++ [travel]).map fun q => (m.page q).vpage) ++ [(m.page x).vpage] =
                ((pre ++ [travel]) ++ [x]).map fun q => (m.page q).vpage := by simp
            rw [hmap]
            have hlen : rest.length ≤ fuel := by simpa using hfuel
            have := ih hpath' hlen ?_ ?_
            · simpa using this
            · rw [← hmap]
              exact hnodup.append (by simp) (by simpa using hu.2)
            · rw [← hmap]
              intro v hv
              rcases List.mem_append.1 hv with hv | hv
              · exact hused v hv
              · rw [List.mem_singleton.1 hv]
                exact hu.1
          · rename_i hu
            refine ⟨x, _, _, rfl, .inr ⟨pre, travel, rest, rfl, rfl, ?_⟩⟩
            rintro rfl
            have hsplit : ((pre ++ [travel, x]).map fun q => (m.page q).vpage) =
                ((pre ++ [travel]).map fun q => (m.page q).vpage) ++ [(m.page x).vpage] := by simp
            rw [hsplit]
            refine ⟨by simp, by simpa using hnodup, by simpa using hused, ?_⟩
            rintro v hv
            obtain rfl : (m.page x).vpage = v := by simpa using hv
            rw [List.dropLast_concat]
            by_cases hv : use (m.page x).vpage = true
            · refine .inr ?_
              by_contra hnot
              refine hu ?_
              simp only [cleared, hv, List.contains_eq_mem, hnot, decide_false, Bool.not_false,
                Bool.and_self]
            · exact .inl (by simpa using hv)

theorem Rep.head_ne_tail {a : ℕ} {rest : List ℕ} (h : m.Rep (a :: rest)) (hrest : rest ≠ []) :
    m.head ≠ m.tail := by
  rw [h.head_eq, h.tail]
  obtain ⟨l, b, rfl⟩ := (List.eq_nil_or_concat' rest).resolve_left hrest
  intro heq
  have hab : a = b := by simpa [List.getLast?_cons] using heq
  have := h.nodup
  simp [hab] at this

/-- The first page is taken off a list of two or more. -/
theorem Rep.evict_head {a : ℕ} {rest : List ℕ} (h : m.Rep (a :: rest)) (hrest : rest ≠ []) :
    { m with
      size := m.size - 1
      head := m.getNext a }.Rep rest := by
  refine ⟨h.path.2, h.nodup.of_cons, ?_, ?_⟩
  · simp [h.size]
  · simp only [h.tail]
    obtain ⟨l, b, rfl⟩ := (List.eq_nil_or_concat' rest).resolve_left hrest
    simp [List.getLast?_cons]

theorem Rep.evict_inner {a p : ℕ} {l r : List ℕ} (h : m.Rep (l ++ a :: p :: r)) (hr : r ≠ []) :
    ({ m with size := m.size - 1 }.setNext a (m.getNext p)).Rep (l ++ a :: r) := by
  have hnodup := h.nodup
  have hne : ∀ x ∈ l ++ r, x ≠ a := by
    intro x hx
    grind
  refine ⟨h.path.unlink ?_ ?_ ?_, ?_, ?_, ?_⟩
  · intro x hx
    simp [hne x (by simp [hx])]
    rfl
  · simp
  · intro x hx
    simp [hne x (by simp [hx])]
    rfl
  · grind
  · simp [setNext, h.size]
  · obtain ⟨r', b, rfl⟩ := (List.eq_nil_or_concat' r).resolve_left hr
    simpa [setNext, List.getLast?_cons] using h.tail

/-- The scan with `LRU == 1` on a list of two or more whose first page is used. -/
theorem Rep.evict_scan {use : VPage → Bool} {a : ℕ} {rest : List ℕ} (h : m.Rep (a :: rest))
    (hrest : rest ≠ []) (hu : use (m.page a).vpage = true)
    (hok : ¬ TailVictim use ((a :: rest).map fun q => (m.page q).vpage)) :
    ∃ p use' m', { m with size := m.size - 1 }.evictLoop a m.size
        (Function.update use (m.page a).vpage false) a (m.getNext a) = .ok (some p, use', m') ∧
      p ∈ a :: rest ∧ m'.Rep ((a :: rest).erase p) ∧ SamePages m m' := by
  have hnext : m.getNext a = rest.head? := h.path.2.head_eq
  have hstart : Function.update use (m.page a).vpage false =
      cleared use (([] ++ [a]).map fun q => (m.page q).vpage) := by
    have := update_cleared use [] (m.page a).vpage
    have hnil : cleared use [] = use := by
      funext v
      simp [cleared]
    rwa [hnil] at this
  have hfuel : rest.length ≤ m.size := by simp [h.size]
  have hpath : Path m.getNext m.head ([] ++ a :: rest) := h.path
  have hused : ∀ v ∈ ([] ++ [a]).map fun q => (m.page q).vpage, use v = true := by simpa using hu
  have hscan := evictLoop_spec (m := { m with size := m.size - 1 }) a hpath hfuel
    (by simp) hused
  rw [hstart, hnext]
  obtain ⟨p, use', m', heq, hcase⟩ := hscan
  refine ⟨p, use', m', heq, ?_⟩
  rcases hcase with ⟨rfl, rfl⟩ | ⟨l, b, r, hsplit, rfl, hlast⟩
  · refine ⟨by simp, ?_, rfl, fun _ => ⟨rfl, rfl⟩⟩
    rw [List.erase_cons_head]
    exact h.evict_head hrest
  · have hsplit : a :: rest = l ++ b :: p :: r := hsplit
    have hr : r ≠ [] := fun hr => hok (hlast hr)
    have hnodup := h.nodup
    rw [hsplit] at h hnodup ⊢
    refine ⟨by simp, ?_, samePages_setNext _ b _⟩
    have herase : (l ++ b :: p :: r).erase p = l ++ b :: r := by grind
    rw [herase]
    exact h.evict_inner hr

/-- `evictCorePage` on a list: one page is taken out, unless the scan ends at the last of
two or more. -/
theorem Rep.evict {lru : Bool} {use : VPage → Bool} (h : m.Rep live) (hne : live ≠ [])
    (hok : lru = true → ¬ TailVictim use (live.map fun q => (m.page q).vpage)) :
    ∃ p use' m', m.evictCorePage lru use = .ok (some p, use', m') ∧ p ∈ live ∧
      m'.Rep (live.erase p) ∧ SamePages m m' ∧
        (lru = false → live.head? = some p ∧ use' = use) := by
  obtain ⟨a, rest, rfl⟩ := List.exists_cons_of_ne_nil hne
  have hsize : m.size ≠ 0 := by simp [h.size]
  have hhead : m.head = some a := h.head_eq
  unfold evictCorePage
  simp only [hsize, if_false]
  by_cases hrest : rest = []
  · subst hrest
    have heq : m.head = m.tail := by rw [h.head_eq, h.tail]; rfl
    rw [if_pos heq, hhead]
    refine ⟨a, use, _, rfl, by simp, ⟨?_, by simp, ?_, by simp⟩,
      ⟨rfl, fun _ => ⟨rfl, rfl⟩⟩, by simp⟩
    · simp [Lib.Path]
    · simp [h.size]
  · rw [if_neg (h.head_ne_tail hrest)]
    have hfirst : (a :: rest).erase a = rest := by simp
    simp only [hhead]
    split
    · refine ⟨a, use, _, rfl, by simp, ?_, ⟨rfl, fun _ => ⟨rfl, rfl⟩⟩, by simp⟩
      rw [hfirst]
      exact h.evict_head hrest
    · rename_i hlru
      split
      · refine ⟨a, use, _, rfl, by simp, ?_, ⟨rfl, fun _ => ⟨rfl, rfl⟩⟩, by simp⟩
        rw [hfirst]
        exact h.evict_head hrest
      · rename_i hu
        have hu : use (m.page a).vpage = true := by simpa using hu
        have hlru : lru = true := by simpa using hlru
        obtain ⟨p, use', m', heq, hp, hrep, hsame⟩ := h.evict_scan hrest hu (hok hlru)
        rw [hhead] at heq
        exact ⟨p, use', m', heq, hp, hrep, hsame, by simp [hlru]⟩

/-! ## As a list of entries -/

/-- The list holds these virtual pages with their frames, and its pages have been
allocated below `next`. -/
def Holds (m : CoreMap) (next : ℕ) (resident : List (VPage × ℤ)) : Prop :=
  ∃ live, m.Rep live ∧ (∀ q ∈ live, q < next) ∧
    resident = live.map fun q => ((m.page q).vpage, (m.page q).physicalPage)

variable {next : ℕ} {resident : List (VPage × ℤ)}

theorem Holds.new (physPages next : ℕ) : (CoreMap.new physPages).Holds next [] :=
  ⟨[], .new physPages, by simp, rfl⟩

theorem Holds.size (h : m.Holds next resident) : m.size = resident.length := by
  obtain ⟨live, hrep, -, rfl⟩ := h
  simp [hrep.size]

/-- A new page is added to a map that is not full. -/
theorem Holds.add (h : m.Holds next resident) (hroom : m.isFull = false) (bs : ℕ) (physPage : ℤ)
    (virtPage : ℕ) :
    ∃ m', (m.alloc next (.new bs physPage virtPage)).addCorePage next = .ok (0, m') ∧
      m'.Holds (next + 1) (resident ++ [((bs, virtPage), physPage)]) ∧
        m'.capacity = m.capacity := by
  obtain ⟨live, hrep, hlt, rfl⟩ := h
  have hlive : next ∉ live := fun hmem => Nat.lt_irrefl next (hlt next hmem)
  have hnext : (m.alloc next (.new bs physPage virtPage)).getNext next = none := by
    simp [alloc, getNext, CorePage.new]
  obtain ⟨m', heq, hrep', hcap, hsame⟩ :=
    (hrep.alloc hlive (.new bs physPage virtPage)).add hlive hnext
  have hroom' : (m.alloc next (.new bs physPage virtPage)).isFull = false := hroom
  rw [hroom'] at heq hrep'
  refine ⟨m', heq, ⟨live ++ [next], hrep', ?_, ?_⟩, hcap⟩
  · intro q hq
    rcases List.mem_append.1 hq with hq | hq
    · exact Nat.lt_succ_of_lt (hlt q hq)
    · rw [List.mem_singleton.1 hq]
      exact Nat.lt_succ_self next
  · rw [List.map_append]
    congr 1
    · refine List.map_congr_left ?_
      intro q hq
      have hne : q ≠ next := fun heq => hlive (heq ▸ hq)
      rw [(hsame q).1, (hsame q).2]
      simp [alloc, hne]
    · rw [List.map_singleton, (hsame next).1, (hsame next).2]
      simp [alloc, CorePage.new, CorePage.vpage]

/-- One entry is evicted, the first one with `LRU == 0`. -/
theorem Holds.evict (h : m.Holds next resident) (lru : Bool) (use : VPage → Bool)
    (hne : resident ≠ [])
    (hok : lru = true → ¬ TailVictim use (resident.map Prod.fst)) :
    ∃ page use' m' l r, m.evictCorePage lru use = .ok (some page, use', m') ∧
      resident = l ++ ((m'.page page).vpage, (m'.page page).physicalPage) :: r ∧
        m'.Holds next (l ++ r) ∧ m'.capacity = m.capacity ∧
          (lru = false → l = [] ∧ use' = use) := by
  obtain ⟨live, hrep, hlt, rfl⟩ := h
  have hlive : live ≠ [] := by
    rintro rfl
    exact hne rfl
  have hvs : (live.map fun q => ((m.page q).vpage, (m.page q).physicalPage)).map Prod.fst =
      live.map fun q => (m.page q).vpage := by simp
  rw [hvs] at hok
  obtain ⟨p, use', m', heq, hp, hrep', ⟨hcap, hsame⟩, hfifo⟩ := hrep.evict hlive hok
  obtain ⟨l, r, hl, rfl, herase⟩ := List.exists_erase_eq hp
  rw [herase] at hrep'
  refine ⟨p, use', m', l.map fun q => ((m.page q).vpage, (m.page q).physicalPage),
    r.map fun q => ((m.page q).vpage, (m.page q).physicalPage), heq, ?_, ?_, hcap, ?_⟩
  · simp [hsame p]
  · refine ⟨l ++ r, hrep', ?_, ?_⟩
    · intro q hq
      refine hlt q ?_
      simp only [List.mem_append, List.mem_cons] at hq ⊢
      tauto
    · simp [hsame]
  · intro hlru
    obtain ⟨hhead, huse⟩ := hfifo hlru
    refine ⟨?_, huse⟩
    cases l with
    | nil => rfl
    | cons a l =>
        have : a = p := by simpa using hhead
        simp [this] at hl

end CoreMap

/-! ## Runs of calls -/

namespace CoreMap

/-- A core map in use. `live` and `gone` record the pages that have been added and not
evicted, and those that have been evicted. -/
structure State where
  map : CoreMap
  use : VPage → Bool
  live : List ℕ
  gone : List ℕ

def State.init (physPages : ℕ) : State where
  map := .new physPages
  use := fun _ => false
  live := []
  gone := []

inductive Op where
  | add (p bs : ℕ) (physPage : ℤ) (virtPage : ℕ)
  | evict
  | setUse (v : VPage) (b : Bool)

/-- The virtual pages of the list, in its order. -/
def State.vpages (s : State) : List VPage := s.live.map fun q => (s.map.page q).vpage

/-- One call, or a change of a use bit between two calls. -/
def step (lru : Bool) (s : State) : Op → Except Fault State
  | .add p bs physPage virtPage =>
      match (s.map.alloc p (.new bs physPage virtPage)).addCorePage p with
      | .error e => .error e
      | .ok (error, map) =>
          .ok { s with map := map, live := if error = 0 then s.live ++ [p] else s.live }
  | .evict =>
      match s.map.evictCorePage lru s.use with
      | .error e => .error e
      | .ok (none, use, map) => .ok { s with map := map, use := use }
      | .ok (some p, use, map) =>
          .ok { s with
            map := map
            use := use
            live := s.live.erase p
            gone := s.gone ++ [p] }
  | .setUse v b => .ok { s with use := Function.update s.use v b }

/-- The pages that are added are fresh. -/
def Fresh (s : State) : Op → Prop
  | .add p _ _ _ => p ∉ s.live ∧ p ∉ s.gone
  | _ => True

instance (s : State) : (op : Op) → Decidable (Fresh s op)
  | .add p _ _ _ => inferInstanceAs (Decidable (p ∉ s.live ∧ p ∉ s.gone))
  | .evict => .isTrue trivial
  | .setUse _ _ => .isTrue trivial

/-- The call does not unlink the last page of two or more with `LRU == 1`. -/
def KeepsTail (lru : Bool) (s : State) : Op → Prop
  | .evict => lru = true → ¬ TailVictim s.use s.vpages
  | _ => True

instance (lru : Bool) (s : State) : (op : Op) → Decidable (KeepsTail lru s op)
  | .evict => inferInstanceAs (Decidable (lru = true → ¬ TailVictim s.use s.vpages))
  | .add _ _ _ _ => .isTrue trivial
  | .setUse _ _ => .isTrue trivial

/-- The pages are in the list in the order in which they were added, the counter is
their number, both ends are right, and nothing evicted is left. -/
structure Represents (s : State) : Prop where
  path : Path s.map.getNext s.map.head s.live
  size : s.map.size = s.live.length
  tail : s.map.tail = s.live.getLast?
  head_none : s.map.head = none ↔ s.map.size = 0
  tail_none : s.map.tail = none ↔ s.map.size = 0
  gone : ∀ p ∈ s.gone, p ∉ s.live ∧ s.map.tail ≠ some p

/-- The invariant of the runs. -/
def Inv (s : State) : Prop := s.map.Rep s.live ∧ ∀ p ∈ s.gone, p ∉ s.live

theorem Inv.represents {s : State} (h : Inv s) : Represents s := by
  obtain ⟨hrep, hgone⟩ := h
  refine ⟨hrep.path, hrep.size, hrep.tail, ?_, ?_, ?_⟩
  · rw [hrep.head_eq, hrep.size]
    simp
  · rw [hrep.tail, hrep.size]
    simp
  · intro p hp
    refine ⟨hgone p hp, ?_⟩
    rw [hrep.tail]
    intro hlast
    exact hgone p hp (List.mem_of_getLast? hlast)

theorem inv_step (lru : Bool) (s : State) (op : Op) (h : Inv s)
    (hop : Fresh s op ∧ KeepsTail lru s op) : ∃ s', step lru s op = .ok s' ∧ Inv s' := by
  obtain ⟨hrep, hgone⟩ := h
  cases op with
  | add p bs physPage virtPage =>
      obtain ⟨hlive, hfresh⟩ := hop.1
      have hnext : (s.map.alloc p (.new bs physPage virtPage)).getNext p = none := by
        simp [alloc, getNext, CorePage.new]
      obtain ⟨map, heq, hmap, -⟩ := (hrep.alloc hlive (.new bs physPage virtPage)).add hlive hnext
      simp only [step, heq]
      refine ⟨_, rfl, ?_⟩
      by_cases hfull : (s.map.alloc p (.new bs physPage virtPage)).isFull
      · rw [if_pos hfull] at hmap
        simpa [hfull] using ⟨hmap, hgone⟩
      · rw [if_neg hfull] at hmap
        refine ⟨by simpa [hfull] using hmap, ?_⟩
        intro q hq
        have hne : q ≠ p := by
          rintro rfl
          exact hfresh hq
        simpa [hfull, hne] using hgone q hq
  | evict =>
      by_cases hnil : s.live = []
      · have hsize : s.map.size = 0 := by simp [hrep.size, hnil]
        refine ⟨s, ?_, hrep, hgone⟩
        simp [step, evictCorePage, hsize]
      · obtain ⟨p, use', m', heq, hp, hrep', -⟩ := hrep.evict hnil hop.2
        simp only [step, heq]
        refine ⟨_, rfl, hrep', ?_⟩
        intro q hq hmem
        rcases List.mem_append.1 hq with hq | hq
        · exact hgone q hq (List.mem_of_mem_erase hmem)
        · rw [List.mem_singleton.1 hq] at hmem
          exact hrep.nodup.not_mem_erase hmem
  | setUse v b => exact ⟨_, rfl, hrep, hgone⟩

/-- Along every run of calls that adds fresh pages and never unlinks the last page of two
or more by the `LRU == 1` scan, no call fails and the list is the pages that are in
memory. -/
theorem core_map_represents (lru : Bool) (physPages : ℕ) (ops : List Op)
    (hops : Meets (step lru) (fun s op => Fresh s op ∧ KeepsTail lru s op) (.init physPages) ops) :
    ∃ s, runFrom (step lru) (.init physPages) ops = .ok s ∧ Represents s := by
  have hinit : Inv (.init physPages) := ⟨.new physPages, by simp [State.init]⟩
  obtain ⟨s, hs, hinv⟩ := exists_of_meets (inv_step lru) hinit hops
  exact ⟨s, hs, hinv.represents⟩

/-- Two pages in a memory of two frames, both with a clear use bit, under `LRU == 1`:
the first is evicted. -/
theorem core_map_represents_two :
    ∃ s, runFrom (step true) (.init 2) [.add 1 0 0 0, .add 2 0 1 1, .evict] = .ok s ∧
      Represents s := by
  refine core_map_represents true 2 _ ?_
  exact .cons (by decide) rfl (.cons (by decide) rfl (.cons (by decide) rfl trivial))

/-- The last of two pages is unlinked and `tail` still points to it. -/
theorem tail_not_moved :
    ∃ ops s, Meets (step true) Fresh (.init 2) ops ∧
      runFrom (step true) (.init 2) ops = .ok s ∧ ¬ Represents s := by
  refine ⟨[.add 1 0 0 0, .add 2 0 1 1, .setUse (0, 0) true, .evict], _, ?_, rfl, ?_⟩
  · exact .cons (by decide) rfl (.cons (by decide) rfl
      (.cons trivial rfl (.cons trivial rfl trivial)))
  · intro h
    exact (h.gone 2 (by decide)).2 rfl

end CoreMap

end Nachos
