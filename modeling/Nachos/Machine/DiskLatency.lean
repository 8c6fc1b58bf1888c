import Nachos.Filesys.Disk
import Nachos.Lib.Rotation
import Nachos.Lib.Run

/-!
# The latency of the disk

`TimeToSeek`, `ModuloDiff`, `ComputeLatency` and `UpdateLast` of `disk.cc`, and the requests that
call them, at any time and between any other requests. Times and sectors are integers that do not
overflow, with the division of C. The contents of the sectors are left out.
-/

namespace Nachos

namespace DiskLatency

open Lib Filesys

def SectorsPerTrack : ℤ := 32

def RotationTime : ℤ := 500

def SeekTime : ℤ := 500

structure Disk where
  active : Bool
  lastSector : ℤ
  bufferInit : ℤ

namespace Disk

/-- `Disk::Disk`. -/
def new : Disk where
  active := false
  lastSector := 0
  bufferInit := 0

/-- The result of `Disk::TimeToSeek`. -/
def seekTime (d : Disk) (newSector : ℤ) : ℤ :=
  let newTrack := newSector.tdiv SectorsPerTrack
  let oldTrack := d.lastSector.tdiv SectorsPerTrack
  |newTrack - oldTrack| * SeekTime

/-- `*rotation` of `Disk::TimeToSeek`, at the time `totalTicks`. -/
def seekRotation (d : Disk) (totalTicks newSector : ℤ) : ℤ :=
  let overTicks := (totalTicks + d.seekTime newSector).tmod RotationTime
  if overTicks > 0 then RotationTime - overTicks else 0

/-- `Disk::ModuloDiff`. -/
def moduloDiff (target position : ℤ) : ℤ :=
  let toOffset := target.tmod SectorsPerTrack
  let fromOffset := position.tmod SectorsPerTrack
  (toOffset - fromOffset + SectorsPerTrack).tmod SectorsPerTrack

/-- `timeAfter` of `Disk::ComputeLatency`. -/
def timeAfter (d : Disk) (totalTicks newSector : ℤ) : ℤ :=
  totalTicks + d.seekTime newSector + d.seekRotation totalTicks newSector

/-- The track buffer applies. -/
def buffered (d : Disk) (totalTicks newSector : ℤ) (writing : Bool) : Prop :=
  writing = false ∧ d.seekTime newSector = 0 ∧
    (d.timeAfter totalTicks newSector - d.bufferInit).tdiv RotationTime >
      moduloDiff newSector (d.bufferInit.tdiv RotationTime)

instance (d : Disk) (totalTicks newSector : ℤ) (writing : Bool) :
    Decidable (d.buffered totalTicks newSector writing) :=
  inferInstanceAs (Decidable (_ ∧ _))

/-- `Disk::ComputeLatency`. -/
def computeLatency (d : Disk) (totalTicks newSector : ℤ) (writing : Bool) : ℤ :=
  if d.buffered totalTicks newSector writing then
    RotationTime
  else
    let rotation := d.seekRotation totalTicks newSector +
      moduloDiff newSector ((d.timeAfter totalTicks newSector).tdiv RotationTime) * RotationTime
    d.seekTime newSector + rotation + RotationTime

/-- `Disk::UpdateLast`. -/
def updateLast (d : Disk) (totalTicks newSector : ℤ) : Disk :=
  { d with
    bufferInit :=
      if d.seekTime newSector ≠ 0 then d.timeAfter totalTicks newSector else d.bufferInit
    lastSector := newSector }

/-- `Disk::ReadRequest` and `Disk::WriteRequest`, with the ticks for the interrupt. -/
def request (d : Disk) (totalTicks sectorNumber : ℤ) (writing : Bool) : Except Fault (Disk × ℤ) :=
  let ticks := d.computeLatency totalTicks sectorNumber writing
  if d.active then
    .error .assertion
  else if ¬ OnDisk sectorNumber then
    .error .assertion
  else if ticks > 0 then
    .ok ({ d with active := true }.updateLast totalTicks sectorNumber, ticks)
  else
    -- the assertion of `Interrupt::Schedule`
    .error .assertion

/-- `Disk::HandleInterrupt`. -/
def handleInterrupt (d : Disk) : Disk := { d with active := false }

end Disk

/-! ## Runs -/

structure System where
  disk : Disk
  totalTicks : ℤ

inductive Move where
  /-- The clock goes on. -/
  | advance (ticks : ℕ)
  | request (sectorNumber : ℤ) (writing : Bool)
  | interrupt

namespace System

def init : System := ⟨Disk.new, 0⟩

def step (s : System) : Move → Except Fault System
  | .advance ticks => .ok { s with totalTicks := s.totalTicks + ticks }
  | .request sectorNumber writing =>
      match s.disk.request s.totalTicks sectorNumber writing with
      | .error fault => .error fault
      | .ok (d, _) => .ok { s with disk := d }
  | .interrupt => .ok { s with disk := s.disk.handleInterrupt }

end System

/-- The clock and the last sector are not negative, and the track buffer has been empty at the
beginning of a slot. -/
structure Sane (s : System) : Prop where
  totalTicks : 0 ≤ s.totalTicks
  lastSector : 0 ≤ s.disk.lastSector
  bufferInit : 0 ≤ s.disk.bufferInit ∧ RotationTime ∣ s.disk.bufferInit

variable {d : Disk} {s s' : System} {totalTicks newSector : ℤ} {writing : Bool}

theorem seekTime_nonneg (d : Disk) (newSector : ℤ) : 0 ≤ d.seekTime newSector :=
  Int.mul_nonneg (abs_nonneg _) (by decide)

/-- The head is at the beginning of a slot after the seek. -/
theorem timeAfter_eq (h : 0 ≤ totalTicks) :
    d.timeAfter totalTicks newSector =
      nextBoundary RotationTime (totalTicks + d.seekTime newSector) := by
  have hseek := seekTime_nonneg d newSector
  have hover : (totalTicks + d.seekTime newSector).tmod RotationTime =
      (totalTicks + d.seekTime newSector) % RotationTime :=
    Int.tmod_eq_emod_of_nonneg (by omega)
  simp only [Disk.timeAfter, Disk.seekRotation, nextBoundary, hover]
  unfold RotationTime
  split <;> omega

theorem moduloDiff_eq {target position : ℤ} (htarget : 0 ≤ target) (hposition : 0 ≤ position) :
    Disk.moduloDiff target position = (target - position) % SectorsPerTrack := by
  simp only [Disk.moduloDiff, SectorsPerTrack]
  rw [Int.tmod_eq_emod_of_nonneg htarget, Int.tmod_eq_emod_of_nonneg hposition,
    Int.tmod_eq_emod_of_nonneg (by omega)]
  omega

theorem boundary_spec (T : ℤ) :
    RotationTime ∣ nextBoundary RotationTime T ∧ T ≤ nextBoundary RotationTime T :=
  (isLeast_nextBoundary (by decide) T).1

theorem Sane.updateLast (h : Sane s) (newSector : ℤ) :
    0 ≤ (s.disk.updateLast s.totalTicks newSector).bufferInit ∧
      RotationTime ∣ (s.disk.updateLast s.totalTicks newSector).bufferInit := by
  simp only [Disk.updateLast]
  split
  · obtain ⟨hdvd, hle⟩ := boundary_spec (s.totalTicks + s.disk.seekTime newSector)
    have hseek := seekTime_nonneg s.disk newSector
    have htime := h.totalTicks
    rw [timeAfter_eq htime]
    exact ⟨by omega, hdvd⟩
  · exact h.bufferInit

theorem request_ok {t : ℤ} {d' : Disk} (h : d.request totalTicks newSector writing = .ok (d', t)) :
    OnDisk newSector ∧ d' = { d with active := true }.updateLast totalTicks newSector := by
  simp only [Disk.request] at h
  split at h
  · cases h
  · split at h
    · cases h
    · rename_i hrange
      split at h
      · cases h
        exact ⟨not_not.1 hrange, rfl⟩
      · cases h

theorem Sane.step (h : Sane s) {a : Move} (hstep : s.step a = .ok s') : Sane s' := by
  cases a with
  | advance ticks =>
      cases hstep
      have htime := h.totalTicks
      exact ⟨by simp only; omega, h.lastSector, h.bufferInit⟩
  | request sectorNumber writing =>
      simp only [System.step] at hstep
      split at hstep
      · cases hstep
      · rename_i hrequest
        cases hstep
        obtain ⟨hrange, rfl⟩ := request_ok hrequest
        exact ⟨h.totalTicks, hrange.1, h.updateLast sectorNumber⟩
  | interrupt =>
      cases hstep
      exact ⟨h.totalTicks, h.lastSector, h.bufferInit⟩

theorem init_sane : Sane System.init :=
  ⟨le_rfl, le_rfl, le_rfl, dvd_zero _⟩

theorem Sane.of_reachable (h : Reachable System.step System.init s) : Sane s :=
  h.invariant init_sane fun _ _ _ _ hs hstep => hs.step hstep

/-! ## The geometry -/

/-- The sector has passed completely under the head at the time `t`. -/
def Completes (newSector t : ℤ) : Prop :=
  t % RotationTime = 0 ∧ (t / RotationTime - 1) % SectorsPerTrack = newSector % SectorsPerTrack

theorem completes_iff (newSector x : ℤ) :
    Completes newSector (x + RotationTime) ↔ Starts RotationTime SectorsPerTrack newSector x := by
  have hdiv : (x + RotationTime) / RotationTime - 1 = x / RotationTime := by
    unfold RotationTime
    omega
  have hmod : (x + RotationTime) % RotationTime = 0 ↔ RotationTime ∣ x := by
    unfold RotationTime
    omega
  rw [Completes, hdiv, hmod]
  rfl

/-- The rotational delay of the code, from the beginning `b` of a slot. -/
theorem moduloDiff_of_nonneg {b : ℤ} (hnonneg : 0 ≤ b) (hsector : 0 ≤ newSector) :
    Disk.moduloDiff newSector (b.tdiv RotationTime) =
      (newSector - b / RotationTime) % SectorsPerTrack := by
  rw [Int.tdiv_eq_ediv_of_nonneg hnonneg]
  exact moduloDiff_eq hsector (Int.ediv_nonneg hnonneg (by decide))

theorem nextStart_of_dvd {b : ℤ} (hb : RotationTime ∣ b) (hnonneg : 0 ≤ b)
    (hsector : 0 ≤ newSector) :
    nextStart RotationTime SectorsPerTrack newSector b =
      b + Disk.moduloDiff newSector (b.tdiv RotationTime) * RotationTime := by
  have hself : nextBoundary RotationTime b = b := by
    rw [nextBoundary, Int.emod_eq_zero_of_dvd (Int.dvd_neg.2 hb), add_zero]
  rw [nextStart, hself, moduloDiff_of_nonneg hnonneg hsector]

theorem timeAfter_nonneg (h : 0 ≤ totalTicks) : 0 ≤ d.timeAfter totalTicks newSector := by
  have hseek := seekTime_nonneg d newSector
  have hle := (boundary_spec (totalTicks + d.seekTime newSector)).2
  rw [timeAfter_eq h]
  omega

theorem latency_of_slow (h : Sane s) (hsector : 0 ≤ newSector)
    (hslow : ¬ s.disk.buffered s.totalTicks newSector writing) :
    s.totalTicks + s.disk.computeLatency s.totalTicks newSector writing =
      nextStart RotationTime SectorsPerTrack newSector
        (s.totalTicks + s.disk.seekTime newSector) + RotationTime := by
  have hafter : 0 ≤ s.disk.timeAfter s.totalTicks newSector := timeAfter_nonneg h.totalTicks
  have hdelay := moduloDiff_of_nonneg hafter hsector
  rw [Disk.computeLatency, if_neg hslow, nextStart, ← timeAfter_eq h.totalTicks, ← hdelay]
  simp only [Disk.timeAfter]
  ring

theorem buffered_iff (h : Sane s) (hsector : 0 ≤ newSector) :
    s.disk.buffered s.totalTicks newSector writing ↔
      writing = false ∧ s.disk.seekTime newSector = 0 ∧
        ∃ x, Starts RotationTime SectorsPerTrack newSector x ∧ s.disk.bufferInit ≤ x ∧
          x + RotationTime ≤ nextBoundary RotationTime s.totalTicks := by
  rw [Disk.buffered]
  refine and_congr_right fun _ => and_congr_right fun hseek => ?_
  obtain ⟨hnonneg, hdvd⟩ := h.bufferInit
  have hslot := isLeast_nextStart (by decide : 0 < RotationTime) (by decide : 0 < SectorsPerTrack)
    newSector s.disk.bufferInit
  have hstart := nextStart_of_dvd hdvd hnonneg hsector
  obtain ⟨q, hq⟩ := Int.dvd_sub (boundary_spec s.totalTicks).1 hdvd
  rw [timeAfter_eq h.totalTicks, hseek, add_zero, hq, Int.mul_tdiv_cancel_left _ (by decide)]
  have hiff : q > Disk.moduloDiff newSector (s.disk.bufferInit.tdiv RotationTime) ↔
      nextStart RotationTime SectorsPerTrack newSector s.disk.bufferInit + RotationTime ≤
        nextBoundary RotationTime s.totalTicks := by
    rw [hstart]
    unfold RotationTime at hq ⊢
    omega
  rw [hiff]
  constructor
  · intro hpassed
    exact ⟨_, hslot.1.1, hslot.1.2, hpassed⟩
  · rintro ⟨x, hx, hinit, hpassed⟩
    have := hslot.2 ⟨hx, hinit⟩
    omega

theorem le_latency (h : Sane s) (hsector : 0 ≤ newSector) :
    RotationTime ≤ s.disk.computeLatency s.totalTicks newSector writing := by
  by_cases hbuffered : s.disk.buffered s.totalTicks newSector writing
  · rw [Disk.computeLatency, if_pos hbuffered]
  · have hslow := latency_of_slow h hsector hbuffered
    have hslot := isLeast_nextStart (by decide : 0 < RotationTime)
      (by decide : 0 < SectorsPerTrack) newSector (s.totalTicks + s.disk.seekTime newSector)
    have hle := hslot.1.2
    have hseek := seekTime_nonneg s.disk newSector
    omega

/-- In every run of requests: a request that the track buffer does not serve is completed at the
first time, not before a whole slot has passed after the seek, at which its sector has passed under
the head. The track buffer serves the reads without a seek of the sectors that have passed since it
was empty. The assertion of `Schedule` holds. -/
theorem latency_matches_geometry (s : System) (h : Reachable System.step System.init s)
    (newSector : ℤ) (hrange : OnDisk newSector) (writing : Bool) :
    (¬ s.disk.buffered s.totalTicks newSector writing →
      IsLeast {t | Completes newSector t ∧
          s.totalTicks + s.disk.seekTime newSector + RotationTime ≤ t}
        (s.totalTicks + s.disk.computeLatency s.totalTicks newSector writing)) ∧
      (s.disk.buffered s.totalTicks newSector writing ↔
        writing = false ∧ s.disk.seekTime newSector = 0 ∧
          ∃ x, Starts RotationTime SectorsPerTrack newSector x ∧ s.disk.bufferInit ≤ x ∧
            x + RotationTime ≤ nextBoundary RotationTime s.totalTicks) ∧
      RotationTime ≤ s.disk.computeLatency s.totalTicks newSector writing ∧
      (s.disk.active = false → ∃ d, s.disk.request s.totalTicks newSector writing =
        .ok (d, s.disk.computeLatency s.totalTicks newSector writing)) := by
  have hsane := Sane.of_reachable h
  have hlatency : RotationTime ≤ s.disk.computeLatency s.totalTicks newSector writing :=
    le_latency hsane hrange.1
  refine ⟨fun hslow => ?_, buffered_iff hsane hrange.1, hlatency, fun hactive => ?_⟩
  · have hslot := isLeast_nextStart (by decide : 0 < RotationTime)
      (by decide : 0 < SectorsPerTrack) newSector (s.totalTicks + s.disk.seekTime newSector)
    rw [latency_of_slow hsane hrange.1 hslow]
    refine ⟨⟨(completes_iff _ _).2 hslot.1.1, Int.add_le_add_right hslot.1.2 _⟩, ?_⟩
    rintro t ⟨hcompletes, ht⟩
    rw [← Int.sub_add_cancel t RotationTime] at hcompletes
    have := hslot.2 ⟨(completes_iff _ _).1 hcompletes, by omega⟩
    omega
  · have hpositive : s.disk.computeLatency s.totalTicks newSector writing > 0 :=
      lt_of_lt_of_le (by decide) hlatency
    simp only [Disk.request, hactive]
    rw [if_neg (by decide), if_neg (not_not.2 hrange), if_pos hpositive]
    exact ⟨_, rfl⟩

/-- A write to another track, and a read that the track buffer serves. -/
theorem latency_of_write :
    ∃ s, runFrom System.step System.init [.request 100 true, .advance 20000, .interrupt] = .ok s ∧
      IsLeast {t | Completes 5 t ∧ s.totalTicks + s.disk.seekTime 5 + RotationTime ≤ t}
        (s.totalTicks + s.disk.computeLatency s.totalTicks 5 true) ∧
      s.disk.buffered s.totalTicks 101 false := by
  obtain ⟨s, hrun, hseek, hinit, hnow⟩ : ∃ s, runFrom System.step System.init
      [.request 100 true, .advance 20000, .interrupt] = .ok s ∧ s.disk.seekTime 101 = 0 ∧
        s.disk.bufferInit ≤ 2500 ∧ 2500 + RotationTime ≤ nextBoundary RotationTime s.totalTicks :=
    ⟨_, rfl, by decide⟩
  refine ⟨s, hrun, ?_, ?_⟩
  · exact (latency_matches_geometry s ⟨_, hrun⟩ 5 (by decide) true).1 fun h => by cases h.1
  · have hstarts : Starts RotationTime SectorsPerTrack 101 2500 := ⟨⟨5, rfl⟩, rfl⟩
    exact (latency_matches_geometry s ⟨_, hrun⟩ 101 (by decide) false).2.1.2
      ⟨rfl, hseek, 2500, hstarts, hinit, hnow⟩

end DiskLatency

end Nachos
