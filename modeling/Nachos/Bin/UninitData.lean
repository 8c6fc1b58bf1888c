import Nachos.Bin.Coff2noff

/-!
# The segment of the uninitialized data

The loop of `coff2noff.c` adds up the sizes of the `.bss` and `.sbss` sections behind the address
of the first of them. It rejects a section that begins where the segment ends, and accepts every
other one.
-/

namespace Nachos

namespace Coff

namespace Scnhdr

def isDotBss (sec : Scnhdr) : Bool := sec.named ['.', 'b', 's', 's']

def isDotSbss (sec : Scnhdr) : Bool := sec.named ['.', 's', 'b', 's', 's']

/-- A `.bss` or `.sbss` section that is not empty. -/
def bss (sec : Scnhdr) : Bool := sec.size ≠ 0#32 && sec.isBss

/-- One of the sections begins where the other one ends. -/
def Contiguous (sec sec' : Scnhdr) : Prop :=
  sec.paddr.toNat + sec.size.toNat = sec'.paddr.toNat ∨
    sec'.paddr.toNat + sec'.size.toNat = sec.paddr.toNat

theorem isBss_eq (sec : Scnhdr) : sec.isBss = (sec.isDotBss || sec.isDotSbss) := rfl

theorem name_of_isDotBss {sec : Scnhdr} (h : sec.isDotBss = true) : sec.name 1 = 98#8 := by
  simp [isDotBss, named, List.range_succ] at h
  exact h.2.1

theorem name_of_isDotSbss {sec : Scnhdr} (h : sec.isDotSbss = true) : sec.name 1 = 115#8 := by
  simp [isDotSbss, named, List.range_succ] at h
  exact h.2.1

theorem name_of_isBss {sec : Scnhdr} (h : sec.isBss = true) :
    sec.name 1 = 98#8 ∨ sec.name 1 = 115#8 := by
  rw [isBss_eq, Bool.or_eq_true] at h
  exact h.imp name_of_isDotBss name_of_isDotSbss

theorem bss_of_isText {sec : Scnhdr} (h : sec.isText = true) : sec.bss = false := by
  have hname : sec.name 1 = 116#8 := by
    simp [isText, named, List.range_succ] at h
    exact h.2.1
  by_contra hbss
  simp [bss] at hbss
  have := name_of_isBss hbss.2
  simp [hname] at this

theorem bss_of_isData {sec : Scnhdr} (h : sec.isData = true) : sec.bss = false := by
  have hname : sec.name 1 = 100#8 ∨ sec.name 1 = 114#8 := by
    simp [isData, named, List.range_succ] at h
    exact h.imp (fun h => h.2.1) fun h => h.2.1
  by_contra hbss
  simp [bss] at hbss
  have hname' := name_of_isBss hbss.2
  rcases hname with hname | hname <;> simp [hname] at hname'

theorem dot_of_bss {sec : Scnhdr} (h : sec.bss = true) :
    sec.isDotBss = true ∨ sec.isDotSbss = true := by
  simp only [bss, isBss_eq, Bool.and_eq_true, Bool.or_eq_true] at h
  exact h.2

theorem size_pos_of_bss {sec : Scnhdr} (h : sec.bss = true) : 0 < sec.size.toNat := by
  simp [bss] at h
  have : sec.size.toNat ≠ 0 := fun h0 => h.1 (BitVec.eq_of_toNat_eq h0)
  omega

end Scnhdr

/-- The uninitialized data of a file, as the comments of `coff2noff.c` have it. -/
structure Treats (coff noff : File) : Prop where
  contiguous : ∀ bss ∈ sections coff, ∀ sbss ∈ sections coff,
    bss.bss = true → bss.isDotBss = true → sbss.bss = true → sbss.isDotSbss = true →
      bss.Contiguous sbss ∧
        ∀ a, noff.header.uninitData.Covers a ↔ bss.Covers a ∨ sbss.Covers a
  covered : ∀ sec ∈ sections coff, sec.isBss = true →
    ∀ a, sec.Covers a → noff.header.uninitData.Covers a

/-! ## The sections of a file -/

def totalSize (secs : List Scnhdr) : ℕ := (secs.map fun sec => sec.size.toNat).sum

/-- The sections that the header counts: where the sizes have added up to a multiple of `2 ^ 32`,
the sum is 0 and the next section is the first one again. -/
def counted (secs : List Scnhdr) : List Scnhdr :=
  secs.foldl (fun run sec => if 2 ^ 32 ∣ totalSize run then [sec] else run ++ [sec]) []

/-- The `.bss` and `.sbss` sections that are not empty. -/
def uninitialized (coff : File) : List Scnhdr := (sections coff).filter Scnhdr.bss

/-- Every section lies between the address of the first one that counts and that address plus the
sizes of all that count. -/
def Within (secs : List Scnhdr) : Prop :=
  ∀ first ∈ (counted secs).head?, ∀ sec ∈ secs, first.paddr.toNat ≤ sec.paddr.toNat ∧
    sec.paddr.toNat + sec.size.toNat ≤ first.paddr.toNat + totalSize (counted secs) % 2 ^ 32

instance (secs : List Scnhdr) : Decidable (Within secs) :=
  inferInstanceAs (Decidable (∀ _ ∈ (counted secs).head?, ∀ _ ∈ secs, _ ∧ _))

/-- There are not both `.bss` and `.sbss` sections. -/
def OneKind (secs : List Scnhdr) : Prop :=
  (∀ sec ∈ secs, sec.isDotBss = true) ∨ ∀ sec ∈ secs, sec.isDotSbss = true

instance (secs : List Scnhdr) : Decidable (OneKind secs) := inferInstanceAs (Decidable (_ ∨ _))

variable {coff noff : File} {seg : Segment} {sec : Scnhdr} {m m' : Main} {secs done : List Scnhdr}

theorem totalSize_append (secs secs' : List Scnhdr) :
    totalSize (secs ++ secs') = totalSize secs + totalSize secs' := by
  simp [totalSize]

@[simp] theorem totalSize_singleton (sec : Scnhdr) : totalSize [sec] = sec.size.toNat := by
  simp [totalSize]

@[simp] theorem totalSize_nil : totalSize [] = 0 := rfl

@[simp] theorem counted_nil : counted [] = [] := rfl

theorem counted_append_singleton (secs : List Scnhdr) (sec : Scnhdr) :
    counted (secs ++ [sec]) =
      if 2 ^ 32 ∣ totalSize (counted secs) then [sec] else counted secs ++ [sec] := by
  rw [counted, List.foldl_append]
  rfl

/-- Sizes that do not add up to `2 ^ 32` all count. -/
theorem counted_eq (hsize : ∀ sec ∈ secs, sec.bss = true) (h : totalSize secs < 2 ^ 32) :
    counted secs = secs := by
  induction secs using List.reverseRecOn with
  | nil => rfl
  | append_singleton secs sec ih =>
      rw [totalSize_append] at h
      have hsecs := ih (fun sec' hmem => hsize sec' (List.mem_append_left _ hmem)) (by omega)
      rw [counted_append_singleton, hsecs]
      match secs with
      | [] => simp
      | first :: rest =>
          have hfirst := Scnhdr.size_pos_of_bss (hsize first (by simp))
          have hpos : 0 < totalSize (first :: rest) := by
            simp only [totalSize, List.map_cons, List.sum_cons]
            omega
          rw [if_neg fun hdvd => by have := Nat.le_of_dvd hpos hdvd; omega]

theorem counted_ne_nil (h : secs ≠ []) : counted secs ≠ [] := by
  induction secs using List.reverseRecOn with
  | nil => exact absurd rfl h
  | append_singleton secs sec =>
      rw [counted_append_singleton]
      split <;> simp

/-! ## The loop -/

theorem copy_noffH (h : m.copy sec = some m') : m'.noffH = m.noffH := by
  unfold Main.copy at h
  split at h
  · cases h
  · split at h
    · cases h
    · cases h
      rfl

/-- What a section does to the segment. -/
inductive Puts (seg : Segment) (sec : Scnhdr) : Segment → Prop
  | none (h : sec.bss = false) : Puts seg sec seg
  | first (h : sec.bss = true) (hsize : seg.size = 0#32) :
      Puts seg sec { seg with virtualAddr := sec.paddr, size := sec.size }
  | more (h : sec.bss = true) (hsize : seg.size ≠ 0#32)
      (hne : sec.paddr ≠ seg.virtualAddr + seg.size) :
      Puts seg sec { seg with size := seg.size + sec.size }

theorem load_puts (h : m.load sec = some m') :
    Puts m.noffH.uninitData sec m'.noffH.uninitData := by
  unfold Main.load at h
  split at h
  · rename_i hempty
    cases h
    exact .none (by simp [Scnhdr.bss, hempty])
  · rename_i hne
    split at h
    · rename_i hname
      rw [copy_noffH h]
      exact .none (Scnhdr.bss_of_isText hname)
    · split at h
      · rename_i hname
        split at h
        · cases h
        · rw [copy_noffH h]
          exact .none (Scnhdr.bss_of_isData hname)
      · split at h
        · rename_i hname
          have hbss : sec.bss = true := by simp [Scnhdr.bss, hne, hname]
          simp only at h
          split at h
          · rename_i hsize
            split at h
            · cases h
            · rename_i hpaddr
              cases h
              exact .more hbss hsize hpaddr
          · rename_i hsize
            cases h
            exact .first hbss (by simpa using hsize)
        · cases h

/-- The segment and the `.bss` and `.sbss` sections behind it. A section that begins where the
segment ended has been rejected. -/
structure Reserved (seg : Segment) (secs : List Scnhdr) : Prop where
  size : seg.size.toNat = totalSize (counted secs) % 2 ^ 32
  virtualAddr : ∀ first ∈ (counted secs).head?, seg.virtualAddr = first.paddr
  apart : ∀ before sec after, secs = before ++ sec :: after →
    ∀ first ∈ (counted before).head?, ¬ 2 ^ 32 ∣ totalSize (counted before) →
      sec.paddr.toNat ≠ (first.paddr.toNat + totalSize (counted before)) % 2 ^ 32

theorem Reserved.size_eq_zero_iff (h : Reserved seg secs) :
    seg.size = 0#32 ↔ 2 ^ 32 ∣ totalSize (counted secs) := by
  rw [Nat.dvd_iff_mod_eq_zero, ← h.size]
  exact BitVec.toNat_eq

theorem Reserved.apart_append (h : Reserved seg secs)
    (hlast : ∀ first ∈ (counted secs).head?, ¬ 2 ^ 32 ∣ totalSize (counted secs) →
      sec.paddr.toNat ≠ (first.paddr.toNat + totalSize (counted secs)) % 2 ^ 32)
    (before : List Scnhdr) (sec' : Scnhdr) (after : List Scnhdr)
    (heq : secs ++ [sec] = before ++ sec' :: after) :
    ∀ first ∈ (counted before).head?, ¬ 2 ^ 32 ∣ totalSize (counted before) →
      sec'.paddr.toNat ≠ (first.paddr.toNat + totalSize (counted before)) % 2 ^ 32 := by
  rcases List.eq_nil_or_concat' after with rfl | ⟨after, last, rfl⟩
  · obtain ⟨rfl, hsec⟩ := List.append_inj' heq rfl
    cases hsec
    exact hlast
  · rw [← List.cons_append, ← List.append_assoc] at heq
    obtain ⟨hsecs, -⟩ := List.append_inj' heq rfl
    exact h.apart before sec' after hsecs

theorem Reserved.append {seg' : Segment} (h : Reserved seg secs) (hbss : sec.bss = true)
    (hput : Puts seg sec seg') : Reserved seg' (secs ++ [sec]) := by
  cases hput with
  | none hskip =>
      rw [hskip] at hbss
      cases hbss
  | first _ hzero =>
      have hdvd := h.size_eq_zero_iff.1 hzero
      have hcounted : counted (secs ++ [sec]) = [sec] := by
        rw [counted_append_singleton, if_pos hdvd]
      refine ⟨?_, ?_, h.apart_append fun first _ hndvd => absurd hdvd hndvd⟩
      · rw [hcounted, totalSize_singleton, Nat.mod_eq_of_lt sec.size.isLt]
      · intro first hfirst
        rw [hcounted] at hfirst
        cases hfirst
        rfl
  | more _ hpos hne =>
      have hndvd : ¬ 2 ^ 32 ∣ totalSize (counted secs) := fun hdvd =>
        hpos (h.size_eq_zero_iff.2 hdvd)
      have hcounted : counted (secs ++ [sec]) = counted secs ++ [sec] := by
        rw [counted_append_singleton, if_neg hndvd]
      have hnonempty : counted secs ≠ [] := fun hnil => hndvd (by rw [hnil]; exact Nat.dvd_zero _)
      refine ⟨?_, ?_, h.apart_append ?_⟩
      · rw [hcounted, totalSize_append, totalSize_singleton, BitVec.toNat_add, h.size,
          Nat.mod_add_mod]
      · rw [hcounted, List.head?_append_of_ne_nil _ hnonempty]
        exact h.virtualAddr
      · intro first hfirst _ hpaddr
        refine hne (BitVec.eq_of_toNat_eq ?_)
        rw [BitVec.toNat_add, h.size, h.virtualAddr first hfirst, Nat.add_mod_mod, hpaddr]

theorem Reserved.put {seg' : Segment} (h : Reserved seg (done.filter Scnhdr.bss))
    (hput : Puts seg sec seg') : Reserved seg' ((done ++ [sec]).filter Scnhdr.bss) := by
  rw [List.filter_append]
  cases hbss : sec.bss with
  | false =>
      cases hput with
      | none _ => simpa [hbss] using h
      | first htrue _ | more htrue _ _ =>
          rw [hbss] at htrue
          cases htrue
  | true =>
      simp only [List.filter_singleton, hbss, cond_true]
      exact h.append hbss hput

theorem Reserved.run {rest : List Scnhdr}
    (h : Reserved m.noffH.uninitData (done.filter Scnhdr.bss))
    (hrun : rest.foldlM Main.load m = some m') :
    Reserved m'.noffH.uninitData ((done ++ rest).filter Scnhdr.bss) := by
  induction rest generalizing done m with
  | nil =>
      cases hrun
      rwa [List.append_nil]
  | cons sec rest ih =>
      rw [List.foldlM_cons] at hrun
      obtain ⟨m₁, hload, hrun⟩ := Option.bind_eq_some_iff.1 hrun
      rw [List.append_cons]
      exact ih (h.put (load_puts hload)) hrun

theorem reserved_start (fdIn : Fd) (stack : NoffHeader) :
    Reserved (start fdIn stack).noffH.uninitData [] where
  size := rfl
  virtualAddr _ h := by cases h
  apart _ _ _ heq := by simp at heq

theorem coff2noff_reserved {stack : NoffHeader} (h : coff2noff coff stack = some noff) :
    Reserved noff.header.uninitData (uninitialized coff) := by
  obtain ⟨fdIn, m, -, hrun, rfl⟩ := coff2noff_some h
  have hstart : Reserved (start fdIn stack).noffH.uninitData
      (([] : List Scnhdr).filter Scnhdr.bss) := reserved_start fdIn stack
  rw [header_written]
  exact hstart.run hrun

/-! ## When the segment is right -/

/-- The sizes add up to `2 ^ 32` or more, and the rest is the size of any `.bss` section and any
`.sbss` section together, which are contiguous. -/
def Wraps (secs : List Scnhdr) : Prop :=
  2 ^ 32 ≤ totalSize secs ∧
    ∀ bss ∈ secs, ∀ sbss ∈ secs, bss.isDotBss = true → sbss.isDotSbss = true →
      bss.Contiguous sbss ∧
        totalSize (counted secs) % 2 ^ 32 = bss.size.toNat + sbss.size.toNat

theorem covers_iff (hpos : 0 < sec.size.toNat) :
    (∀ a, sec.Covers a → seg.Covers a) ↔
      seg.virtualAddr.toNat ≤ sec.paddr.toNat ∧
        sec.paddr.toNat + sec.size.toNat ≤ seg.virtualAddr.toNat + seg.size.toNat := by
  simp only [Scnhdr.Covers, Segment.Covers]
  constructor
  · intro h
    have hfirst := h sec.paddr.toNat ⟨Nat.le_refl _, by omega⟩
    have hlast := h (sec.paddr.toNat + (sec.size.toNat - 1)) ⟨by omega, by omega⟩
    omega
  · rintro ⟨hlow, hhigh⟩ a ⟨hle, hlt⟩
    omega

/-- Two sections that follow each other are the whole segment when it holds both and has no more
addresses than they have. -/
theorem covers_union_iff {sec' : Scnhdr} (hpos : 0 < sec.size.toNat) (hpos' : 0 < sec'.size.toNat)
    (hcontiguous : sec.Contiguous sec') (h : ∀ a, sec.Covers a → seg.Covers a)
    (h' : ∀ a, sec'.Covers a → seg.Covers a) :
    (∀ a, seg.Covers a ↔ sec.Covers a ∨ sec'.Covers a) ↔
      seg.size.toNat = sec.size.toNat + sec'.size.toNat := by
  obtain ⟨hlow, hhigh⟩ := (covers_iff hpos).1 h
  obtain ⟨hlow', hhigh'⟩ := (covers_iff hpos').1 h'
  simp only [Scnhdr.Contiguous] at hcontiguous
  constructor
  · intro hunion
    have hfirst := (hunion seg.virtualAddr.toNat).1 ⟨Nat.le_refl _, by omega⟩
    have hlast := (hunion (seg.virtualAddr.toNat + (seg.size.toNat - 1))).1
      ⟨by omega, by omega⟩
    simp only [Scnhdr.Covers] at hfirst hlast
    omega
  · intro hsize a
    refine ⟨fun ha => ?_, fun ha => ha.elim (h a) (h' a)⟩
    simp only [Scnhdr.Covers, Segment.Covers] at ha ⊢
    omega

theorem Reserved.within_iff (h : Reserved seg secs) (hbss : ∀ sec ∈ secs, sec.bss = true) :
    (∀ sec ∈ secs, ∀ a, sec.Covers a → seg.Covers a) ↔ Within secs := by
  cases hsecs : secs with
  | nil => simp [Within]
  | cons sec rest =>
      rw [← hsecs]
      have hne : counted secs ≠ [] := counted_ne_nil (by rw [hsecs]; exact List.cons_ne_nil _ _)
      obtain ⟨first, run, hcounted⟩ := List.exists_cons_of_ne_nil hne
      have hfirst : first ∈ (counted secs).head? := by
        rw [hcounted]
        rfl
      have hcovers : ∀ sec ∈ secs, (∀ a, sec.Covers a → seg.Covers a) ↔
          first.paddr.toNat ≤ sec.paddr.toNat ∧ sec.paddr.toNat + sec.size.toNat ≤
            first.paddr.toNat + totalSize (counted secs) % 2 ^ 32 := by
        intro sec hmem
        rw [← h.virtualAddr first hfirst, ← h.size]
        exact covers_iff (Scnhdr.size_pos_of_bss (hbss sec hmem))
      constructor
      · intro hall first' hfirst' sec hmem
        cases Option.mem_unique hfirst hfirst'
        exact (hcovers sec hmem).1 (hall sec hmem)
      · intro hwithin sec hmem
        exact (hcovers sec hmem).2 (hwithin first hfirst sec hmem)

theorem totalSize_cons (sec : Scnhdr) (secs : List Scnhdr) :
    totalSize (sec :: secs) = sec.size.toNat + totalSize secs := by
  simp [totalSize]

theorem eq_nil_of_totalSize (hbss : ∀ sec ∈ secs, sec.bss = true) (h : totalSize secs = 0) :
    secs = [] := by
  match secs with
  | [] => rfl
  | sec :: rest =>
      have hpos := Scnhdr.size_pos_of_bss (hbss sec List.mem_cons_self)
      rw [totalSize_cons] at h
      omega

/-- Sections that are no larger than two of them are these two. -/
theorem eq_pair {sec' : Scnhdr} (hbss : ∀ sec ∈ secs, sec.bss = true) (hmem : sec ∈ secs)
    (hmem' : sec' ∈ secs) (hne : sec ≠ sec')
    (h : totalSize secs = sec.size.toNat + sec'.size.toNat) :
    secs = [sec, sec'] ∨ secs = [sec', sec] := by
  have hnil : ∀ part, part ⊆ secs → totalSize part = 0 → part = [] := fun part hsub =>
    eq_nil_of_totalSize fun sec hmem => hbss sec (hsub hmem)
  obtain ⟨before, after, rfl⟩ := List.append_of_mem hmem
  rcases List.mem_append.1 hmem' with hmem' | hmem'
  · obtain ⟨before, middle, rfl⟩ := List.append_of_mem hmem'
    simp only [totalSize_append, totalSize_cons] at h
    have hbefore := hnil before (fun _ h => by simp [h]) (by omega)
    have hmiddle := hnil middle (fun _ h => by simp [h]) (by omega)
    have hafter := hnil after (fun _ h => by simp [h]) (by omega)
    subst hbefore hmiddle hafter
    exact .inr rfl
  · obtain ⟨middle, after, rfl⟩ := List.append_of_mem
      ((List.mem_cons.1 hmem').resolve_left hne.symm)
    simp only [totalSize_append, totalSize_cons] at h
    have hbefore := hnil before (fun _ h => by simp [h]) (by omega)
    have hmiddle := hnil middle (fun _ h => by simp [h]) (by omega)
    have hafter := hnil after (fun _ h => by simp [h]) (by omega)
    subst hbefore hmiddle hafter
    exact .inl rfl

/-- Of two sections that follow each other the loop rejects the second. -/
theorem Reserved.not_contiguous {sec' : Scnhdr} (h : Reserved seg [sec, sec'])
    (hbss : sec.bss = true) (hbss' : sec'.bss = true) (hle : sec.paddr.toNat ≤ sec'.paddr.toNat) :
    ¬ sec.Contiguous sec' := by
  have hpos := Scnhdr.size_pos_of_bss hbss
  have hpos' := Scnhdr.size_pos_of_bss hbss'
  have hndvd : ¬ 2 ^ 32 ∣ totalSize [sec] := by
    rw [totalSize_singleton]
    exact Nat.not_dvd_of_pos_of_lt hpos sec.size.isLt
  have hone : counted [sec] = [sec] := rfl
  have hapart := h.apart [sec] sec' [] rfl sec rfl (by rw [hone]; exact hndvd)
  rw [hone, totalSize_singleton] at hapart
  rintro (hends | hends)
  · rw [hends, Nat.mod_eq_of_lt sec'.paddr.isLt] at hapart
    exact hapart rfl
  · omega

theorem Scnhdr.ne_of_kinds {sec' : Scnhdr} (h : sec.isDotBss = true) (h' : sec'.isDotSbss = true) :
    sec ≠ sec' := by
  rintro rfl
  have hname := name_of_isDotBss h
  rw [name_of_isDotSbss h'] at hname
  exact absurd hname (by decide)

/-- A `.bss` and a `.sbss` section that follow each other and fill the segment. -/
theorem Reserved.wraps {sec' : Scnhdr} (h : Reserved seg secs)
    (hbss : ∀ sec ∈ secs, sec.bss = true) (hwithin : Within secs) (hmem : sec ∈ secs)
    (hmem' : sec' ∈ secs) (hne : sec ≠ sec') (hcontiguous : sec.Contiguous sec')
    (hsize : totalSize (counted secs) % 2 ^ 32 = sec.size.toNat + sec'.size.toNat) :
    2 ^ 32 ≤ totalSize secs := by
  by_contra hlt
  have hcounted := counted_eq hbss (by omega)
  rw [hcounted, Nat.mod_eq_of_lt (by omega)] at hsize
  rcases eq_pair hbss hmem hmem' hne hsize with rfl | rfl
  · have hle := (hwithin sec (by rw [hcounted]; rfl) sec' (by simp)).1
    exact h.not_contiguous (hbss _ hmem) (hbss _ hmem') hle hcontiguous
  · have hle := (hwithin sec' (by rw [hcounted]; rfl) sec (by simp)).1
    exact h.not_contiguous (hbss _ hmem') (hbss _ hmem) hle hcontiguous.symm

/-- Any `.bss` section and any `.sbss` section, where there are both, wrap the sizes. -/
theorem Reserved.kinds_iff (h : Reserved seg secs) (hbss : ∀ sec ∈ secs, sec.bss = true)
    (hwithin : Within secs) :
    (∀ bss ∈ secs, ∀ sbss ∈ secs, bss.isDotBss = true → sbss.isDotSbss = true →
      bss.Contiguous sbss ∧
        totalSize (counted secs) % 2 ^ 32 = bss.size.toNat + sbss.size.toNat) ↔
      OneKind secs ∨ Wraps secs := by
  constructor
  · intro hpair
    refine or_iff_not_imp_left.2 fun hkinds => ⟨?_, hpair⟩
    obtain ⟨hnotbss, hnotsbss⟩ := not_or.1 hkinds
    obtain ⟨sbss, hmemsbss, hsbss⟩ := not_forall₂.1 hnotbss
    obtain ⟨bss, hmembss, hdotbss⟩ := not_forall₂.1 hnotsbss
    have hdot := (Scnhdr.dot_of_bss (hbss bss hmembss)).resolve_right hdotbss
    have hsdot := (Scnhdr.dot_of_bss (hbss sbss hmemsbss)).resolve_left hsbss
    obtain ⟨hcontiguous, hsize⟩ := hpair bss hmembss sbss hmemsbss hdot hsdot
    exact h.wraps hbss hwithin hmembss hmemsbss (Scnhdr.ne_of_kinds hdot hsdot) hcontiguous hsize
  · rintro ((hall | hall) | ⟨-, hpair⟩) bss hmembss sbss hmemsbss hdot hsdot
    · exact absurd rfl (Scnhdr.ne_of_kinds (hall sbss hmemsbss) hsdot)
    · exact absurd rfl (Scnhdr.ne_of_kinds hdot (hall bss hmembss))
    · exact hpair bss hmembss sbss hmemsbss hdot hsdot

/-- The empty sections have no part in what the comments say. -/
theorem treats_iff :
    Treats coff noff ↔
      (∀ sec ∈ uninitialized coff, ∀ a, sec.Covers a → noff.header.uninitData.Covers a) ∧
        ∀ bss ∈ uninitialized coff, ∀ sbss ∈ uninitialized coff,
          bss.isDotBss = true → sbss.isDotSbss = true → bss.Contiguous sbss ∧
            ∀ a, noff.header.uninitData.Covers a ↔ bss.Covers a ∨ sbss.Covers a := by
  constructor
  · intro htreats
    refine ⟨?_, ?_⟩
    · intro sec hsec
      obtain ⟨hmem, hbss⟩ := List.mem_filter.1 hsec
      refine htreats.covered sec hmem ?_
      rw [Scnhdr.isBss_eq, Bool.or_eq_true]
      exact Scnhdr.dot_of_bss hbss
    · intro bss hmembss sbss hmemsbss hdot hsdot
      obtain ⟨hmembss, hb⟩ := List.mem_filter.1 hmembss
      obtain ⟨hmemsbss, hs⟩ := List.mem_filter.1 hmemsbss
      exact htreats.contiguous bss hmembss sbss hmemsbss hb hdot hs hsdot
  · rintro ⟨hcovered, hpair⟩
    refine ⟨?_, ?_⟩
    · intro bss hmembss sbss hmemsbss hb hdot hs hsdot
      exact hpair bss (List.mem_filter.2 ⟨hmembss, hb⟩) sbss (List.mem_filter.2 ⟨hmemsbss, hs⟩)
        hdot hsdot
    · intro sec hsec hisBss a ha
      refine hcovered sec (List.mem_filter.2 ⟨hsec, ?_⟩) a ha
      simp [Scnhdr.bss, hisBss, ha.ne]

/-- The uninitialized data of an accepted file are as the comments have them exactly when the
sections lie behind the first of them, no further than their sizes reach, and are all of one name
(or their sizes wrap). -/
theorem uninitData_treats_iff {stack : NoffHeader} (h : coff2noff coff stack = some noff) :
    Treats coff noff ↔
      Within (uninitialized coff) ∧
        (OneKind (uninitialized coff) ∨ Wraps (uninitialized coff)) := by
  have hreserved := coff2noff_reserved h
  have hbss : ∀ sec ∈ uninitialized coff, sec.bss = true := fun sec hmem =>
    (List.mem_filter.1 hmem).2
  rw [treats_iff, hreserved.within_iff hbss]
  refine and_congr_right fun hwithin => ?_
  rw [← hreserved.kinds_iff hbss hwithin]
  have hcovered := (hreserved.within_iff hbss).2 hwithin
  have hpair : ∀ bss ∈ uninitialized coff, ∀ sbss ∈ uninitialized coff, bss.Contiguous sbss →
      ((∀ a, noff.header.uninitData.Covers a ↔ bss.Covers a ∨ sbss.Covers a) ↔
        totalSize (counted (uninitialized coff)) % 2 ^ 32 =
          bss.size.toNat + sbss.size.toNat) := by
    intro bss hmembss sbss hmemsbss hcontiguous
    rw [← hreserved.size]
    exact covers_union_iff (Scnhdr.size_pos_of_bss (hbss _ hmembss))
      (Scnhdr.size_pos_of_bss (hbss _ hmemsbss)) hcontiguous (hcovered _ hmembss)
      (hcovered _ hmemsbss)
  refine forall₂_congr fun bss hmembss => forall₂_congr fun sbss hmemsbss => ?_
  exact forall₂_congr fun _ _ => and_congr_right fun hcontiguous =>
    hpair bss hmembss sbss hmemsbss hcontiguous

/-- A COFF file with a `.bss` section of ten bytes at 100 and a `.sbss` section of `size` bytes
at 200. -/
def bssFile (size : Byte) : File where
  length := 156
  byte := fun i => ([0x62, 0x01, 2, 0] ++ List.replicate 16 0 ++ [0x07, 0x01] ++
    List.replicate 54 0 ++
    [46, 98, 115, 115, 0, 0, 0, 0, 100, 0, 0, 0, 100, 0, 0, 0, 10, 0, 0, 0] ++
    List.replicate 20 0 ++
    [46, 115, 98, 115, 115, 0, 0, 0, 200, 0, 0, 0, 200, 0, 0, 0, size, 0, 0, 0] ++
    List.replicate 20 0 : List Byte).getD i 0

/-- The `.sbss` section is empty. -/
theorem uninitData_treats_bss :
    ∃ noff, coff2noff (bssFile 0) VM.oldHeader = some noff ∧ Treats (bssFile 0) noff := by
  have hsome : (coff2noff (bssFile 0) VM.oldHeader).isSome = true := by decide +kernel
  obtain ⟨noff, hnoff⟩ := Option.isSome_iff_exists.1 hsome
  exact ⟨noff, hnoff, (uninitData_treats_iff hnoff).2 ⟨by decide +kernel, .inl (by decide +kernel)⟩⟩

/-- The two sections are not contiguous. -/
theorem bssFile_not_treated :
    ∃ noff, coff2noff (bssFile 10) VM.oldHeader = some noff ∧ ¬ Treats (bssFile 10) noff := by
  have hsome : (coff2noff (bssFile 10) VM.oldHeader).isSome = true := by decide +kernel
  obtain ⟨noff, hnoff⟩ := Option.isSome_iff_exists.1 hsome
  have huncovered : ¬ ((coff2noff (bssFile 10) VM.oldHeader).getD .empty).header.uninitData.Covers
      205 := by decide +kernel
  rw [hnoff] at huncovered
  have hmem : scnhdrAt (bssFile 10).byte 116 ∈ sections (bssFile 10) :=
    List.mem_map.2 ⟨1, by decide +kernel, rfl⟩
  exact ⟨noff, hnoff, fun htreats =>
    huncovered (htreats.covered _ hmem (by decide +kernel) 205 (by decide +kernel))⟩

end Coff

end Nachos
