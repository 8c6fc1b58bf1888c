import Nachos.Filesys.Disk
import Nachos.Threads.Device

/-!
# Requests to the disk

`SynchDisk::ReadSector` and `SynchDisk::WriteSector` as a program over the kernel: any number of
threads call them in any order, and between these calls they may do anything that does not touch the
lock and the semaphore of `SynchDisk`. The interrupt of a request comes at any time at which the CPU
accepts one. `history` are the requests in the order in which they are made, with what is read,
and `returned` and `reads` are what the calls have come back with.
-/

namespace Nachos

open Lib

namespace Filesys

namespace SynchDisk

inductive Request where
  | read (sectorNumber : ℤ) (data : ℕ → Byte)
  | write (sectorNumber : ℤ) (data : ℕ → Byte)

/-- Where a thread is in the code of `SynchDisk`. -/
inductive Pc where
  | out
  /-- `ReadSector` after its `Acquire`. -/
  | read (sectorNumber : ℤ) (data : ℕ → Byte)
  /-- `ReadSector` after its `P`. -/
  | readDone (request : ℕ) (data : ℕ → Byte)
  /-- `WriteSector` after its `Acquire`. -/
  | write (sectorNumber : ℤ) (data : ℕ → Byte)
  /-- `WriteSector` after its `P`. -/
  | writeDone (request : ℕ)

structure Data where
  disk : Disk
  active : Bool
  /-- The interrupts of the disk. -/
  device : Device
  history : List Request
  /-- The requests of the calls that return. -/
  returned : List ℕ
  /-- What the calls of `ReadSector` return. -/
  reads : List (ℕ × (ℕ → Byte))

/-- The constructors of `SynchDisk` and `Disk`. -/
def Data.new (disk : Disk) : Data where
  disk := disk
  active := false
  device := .new
  history := []
  returned := []
  reads := []

def lock : ℕ := 0
def semaphore : ℕ := 0

/-- Why the code of a thread does not go on. -/
inductive Failure where
  | disabled
  /-- `ASSERT(!active)`. -/
  | active
  /-- `ASSERT((sectorNumber >= 0) && (sectorNumber < NumSectors))`. -/
  | sectorNumber
  deriving DecidableEq

/-- The call does not touch the members of `SynchDisk`. -/
def foreign : Call Pc → Bool
  | .P s => s ≠ semaphore
  | .V s => s ≠ semaphore
  | .acquire l => l ≠ .user lock
  | .release l => l ≠ .user lock
  | .wait _ l => l ≠ .user lock
  | .fork _ _ .out => true
  | .fork _ _ _ => false
  | _ => true

/-- What a thread outside `SynchDisk` does next, and what a handler does. -/
inductive Act where
  | readSector (sectorNumber : ℤ) (data : ℕ → Byte)
  | writeSector (sectorNumber : ℤ) (data : ℕ → Byte)
  | other (o : Call Pc)
  /-- The interrupt of the request. -/
  | diskDone (request : ℕ)
  | handle (sems : List ℕ)

namespace Data

/-- `active = TRUE`, and the interrupt is scheduled. -/
def request (d : Data) (t : Tid) (r : Request) : Data :=
  { d with active := true, device := d.device.issue t, history := d.history ++ [r] }

/-- `Disk::ReadRequest`. -/
def readRequest (d : Data) (t : Tid) (sectorNumber : ℤ) (data : ℕ → Byte) :
    Except Failure ((ℕ → Byte) × Data) :=
  if d.active then
    .error .active
  else
    match readSector d.disk sectorNumber data 0 with
    | .error _ => .error .sectorNumber
    | .ok data' => .ok (data', d.request t (.read sectorNumber data'))

/-- `Disk::WriteRequest`. -/
def writeRequest (d : Data) (t : Tid) (sectorNumber : ℤ) (data : ℕ → Byte) : Except Failure Data :=
  if d.active then
    .error .active
  else
    match writeSector d.disk sectorNumber data with
    | .error _ => .error .sectorNumber
    | .ok disk => .ok ({ d with disk := disk }.request t (.write sectorNumber data))

/-- `Disk::HandleInterrupt`. -/
def handleInterrupt (d : Data) (request : ℕ) : Data :=
  { d with active := false, device := d.device.complete request }

end Data

/-- What a thread outside `SynchDisk` does next. -/
def outside (d : Data) : Act → Except Failure (Call Pc × Pc × Data)
  | .readSector sectorNumber data => .ok (.acquire (.user lock), .read sectorNumber data, d)
  | .writeSector sectorNumber data => .ok (.acquire (.user lock), .write sectorNumber data, d)
  | .other o => if foreign o then .ok (o, .out, d) else .error .disabled
  | _ => .error .disabled

/-- The own code of the thread `t` up to its next call. -/
def code (t : Tid) (pc : Pc) (d : Data) (a : Act) : Except Failure (Call Pc × Pc × Data) :=
  match pc with
  | .out => outside d a
  | .read sectorNumber data =>
      match d.readRequest t sectorNumber data with
      | .error e => .error e
      | .ok (data', d') => .ok (.P semaphore, .readDone d.device.issuers.length data', d')
  | .readDone request data =>
      .ok (.release (.user lock), .out,
        { d with returned := d.returned ++ [request], reads := d.reads ++ [(request, data)] })
  | .write sectorNumber data =>
      match d.writeRequest t sectorNumber data with
      | .error e => .error e
      | .ok d' => .ok (.P semaphore, .writeDone d.device.issuers.length, d')
  | .writeDone request =>
      .ok (.release (.user lock), .out, { d with returned := d.returned ++ [request] })

/-- The program of the threads that use the disk. `SynchDisk::RequestDone` calls `V`. -/
def client : Client Pc Data Act where
  next t pc d _ a := (code t pc d a).toOption
  handler a d :=
    match a with
    | .diskDone request =>
        if request ∈ d.device.pending then some ([semaphore], d.handleInterrupt request) else none
    | .handle sems => if semaphore ∈ sems then none else some (sems, d)
    | _ => none

/-! ## Moves -/

/-- The thread is between its `Acquire` and its `Release`. -/
def Pc.inside : Pc → Bool
  | .out => false
  | _ => true

/-- The thread has called `Acquire`. -/
def Pc.entry : Pc → Bool
  | .read _ _ => true
  | .write _ _ => true
  | _ => false

/-- The request that the thread has made. -/
def Pc.waits : Pc → Option ℕ
  | .readDone request _ => some request
  | .writeDone request => some request
  | _ => none

/-- What the own code of the thread `t` does up to its next call. -/
inductive Move (t : Tid) (d : Data) : Pc → Call Pc → Pc → Data → Prop
  | callRead (sectorNumber : ℤ) (data : ℕ → Byte) :
      Move t d .out (.acquire (.user lock)) (.read sectorNumber data) d
  | callWrite (sectorNumber : ℤ) (data : ℕ → Byte) :
      Move t d .out (.acquire (.user lock)) (.write sectorNumber data) d
  | other (o : Call Pc) (ho : foreign o = true) : Move t d .out o .out d
  | read (sectorNumber : ℤ) (data : ℕ → Byte) (hactive : d.active = false)
      (hsector : OnDisk sectorNumber)
      (data' : ℕ → Byte)
      (hdata : ∀ k < SectorSize, data' k = d.disk (sectorNumber.toNat * SectorSize + k)) :
      Move t d (.read sectorNumber data) (.P semaphore) (.readDone d.device.issuers.length data')
        (d.request t (.read sectorNumber data'))
  | readDone (request : ℕ) (data : ℕ → Byte) :
      Move t d (.readDone request data) (.release (.user lock)) .out
        { d with returned := d.returned ++ [request], reads := d.reads ++ [(request, data)] }
  | write (sectorNumber : ℤ) (data : ℕ → Byte) (hactive : d.active = false)
      (hsector : OnDisk sectorNumber) :
      Move t d (.write sectorNumber data) (.P semaphore) (.writeDone d.device.issuers.length)
        ({ d with
            disk := splice d.disk (sectorNumber.toNat * SectorSize) SectorSize data }.request t
          (.write sectorNumber data))
  | writeDone (request : ℕ) :
      Move t d (.writeDone request) (.release (.user lock)) .out
        { d with returned := d.returned ++ [request] }

variable {t : Tid} {pc pc' : Pc} {d d' : Data} {a : Act} {o : Call Pc}

theorem move_of_code (h : code t pc d a = .ok (o, pc', d')) : Move t d pc o pc' d' := by
  cases pc with
  | out =>
      cases a with
      | readSector sectorNumber data =>
          cases h
          exact .callRead sectorNumber data
      | writeSector sectorNumber data =>
          cases h
          exact .callWrite sectorNumber data
      | other o' =>
          simp only [code, outside] at h
          split at h
          · cases h
            exact .other _ ‹_›
          · cases h
      | _ => cases h
  | read sectorNumber data =>
      simp only [code, Data.readRequest, readSector] at h
      by_cases hactive : d.active = true
      · simp [hactive] at h
      · by_cases hsector : OnDisk sectorNumber
        · simp only [hactive, hsector, if_true, Bool.false_eq_true, if_false, Except.ok.injEq,
            Prod.mk.injEq] at h
          obtain ⟨rfl, rfl, rfl⟩ := h
          refine .read sectorNumber data (by simpa using hactive) hsector _ ?_
          intro k hk
          exact splice_front hk
        · simp [hactive, hsector] at h
  | readDone request data =>
      cases h
      exact .readDone request data
  | write sectorNumber data =>
      simp only [code, Data.writeRequest, writeSector] at h
      by_cases hactive : d.active = true
      · simp [hactive] at h
      · by_cases hsector : OnDisk sectorNumber
        · simp only [hactive, hsector, if_true, Bool.false_eq_true, if_false, Except.ok.injEq,
            Prod.mk.injEq] at h
          obtain ⟨rfl, rfl, rfl⟩ := h
          exact .write sectorNumber data (by simpa using hactive) hsector
        · simp [hactive, hsector] at h
  | writeDone request =>
      cases h
      exact .writeDone request

theorem move_of_next {view : View} (h : client.next t pc d view a = some (o, pc', d')) :
    Move t d pc o pc' d' := by
  refine move_of_code (a := a) ?_
  simp only [client] at h
  cases hcode : code t pc d a with
  | error e => simp [hcode, Except.toOption] at h
  | ok r =>
      simp only [hcode, Except.toOption, Option.some.injEq] at h
      rw [h]

theorem not_fork {c : Tid} {join : ℤ} {start : Pc} (h : foreign (.fork c join start) = true) :
    start = .out := by
  cases start with
  | out => rfl
  | _ => cases h

theorem handler_cases {sems : List ℕ} (h : client.handler a d = some (sems, d')) :
    (∃ i ∈ d.device.pending, d' = d.handleInterrupt i ∧ sems = [semaphore]) ∨
      d' = d ∧ semaphore ∉ sems := by
  cases a with
  | diskDone request =>
      simp only [client] at h
      split at h
      · rename_i hmem
        cases h
        exact .inl ⟨request, hmem, rfl, rfl⟩
      · cases h
  | handle sems' =>
      simp only [client] at h
      split at h
      · cases h
      · rename_i hmem
        cases h
        exact .inr ⟨rfl, hmem⟩
  | _ => cases h

theorem start_of_fork {view : View} {c : Tid} {join : ℤ} {start : Pc}
    (h : client.next t pc d view a = some (.fork c join start, pc', d')) : start = .out := by
  generalize ho : Call.fork c join start = o at h
  cases move_of_next h with
  | other o hforeign =>
      subst ho
      exact not_fork hforeign
  | _ => cases ho

theorem foreign_about (h : foreign o = true) :
    o.about ≠ some (.lock (.user lock)) ∧ (∀ c, o ≠ .wait c (.user lock)) ∧
      o.about ≠ some (.semaphore semaphore) := by
  cases o <;> simp_all [foreign, Call.about]

theorem drives : client.Drives .out lock semaphore Data.device Pc.inside Pc.entry Pc.waits where
  guards :=
    { crosses := by
        intro t pc d view a o pc' d' h
        cases move_of_next h with
        | callRead sectorNumber data => exact .enter
        | callWrite sectorNumber data => exact .enter
        | other o ho =>
            obtain ⟨hlock, hwait, -⟩ := foreign_about ho
            exact .stay _ o hlock hwait
        | read sectorNumber data hactive hsector data' hdata =>
            exact .stay _ _ (by simp [Call.about]) (by simp)
        | readDone request data => exact .leave
        | write sectorNumber data hactive hsector =>
            exact .stay _ _ (by simp [Call.about]) (by simp)
        | writeDone request => exact .leave
      entry := by
        intro t pc d view a pc' d' h
        generalize ho : Call.acquire (.user lock) = o at h
        cases move_of_next h with
        | callRead sectorNumber data => rfl
        | callWrite sectorNumber data => rfl
        | other o hforeign =>
            subst ho
            simp [foreign] at hforeign
        | _ => cases ho
      fork := by
        intro t pc d view a c join start pc' d' h
        rw [start_of_fork h]
        rfl }
  out := rfl
  fork := start_of_fork
  past := by
    intro pc i h
    cases pc with
    | readDone request data => exact ⟨rfl, rfl⟩
    | writeDone request => exact ⟨rfl, rfl⟩
    | _ => cases h
  operates := by
    intro t pc d view a o pc' d' h
    cases move_of_next h with
    | read sectorNumber data hactive hsector data' hdata => exact .request rfl
    | write sectorNumber data hactive hsector => exact .request rfl
    | other o ho => exact .other o (foreign_about ho).2.2
    | _ => exact .other _ (by simp [Call.about])
  handler := by
    intro a d sems d' h
    rcases handler_cases h with ⟨i, hi, rfl, rfl⟩ | ⟨rfl, hmem⟩
    · exact .inl ⟨i, hi, rfl, rfl⟩
    · exact .inr ⟨rfl, List.count_eq_zero.2 hmem⟩

/-! ## What is read -/

/-- The data of a write to the sector. -/
def Request.writes (sectorNumber : ℤ) : Request → Option (ℕ → Byte)
  | .read _ _ => none
  | .write sectorNumber' data => if sectorNumber' = sectorNumber then some data else none

/-- The data of the latest write to the sector, or what has been on the disk at first. -/
def latest (disk : Disk) (sectorNumber : ℤ) (history : List Request) : ℕ → Byte :=
  (history.reverse.findSome? (Request.writes sectorNumber)).getD
    fun k => disk (sectorNumber.toNat * SectorSize + k)

section

variable {disk : Disk} {sectorNumber sectorNumber' : ℤ} {history : List Request} {data : ℕ → Byte}

theorem latest_read : latest disk sectorNumber (history ++ [.read sectorNumber' data]) =
    latest disk sectorNumber history := by
  simp [latest, Request.writes, List.findSome?_cons]

theorem latest_write : latest disk sectorNumber (history ++ [.write sectorNumber data]) = data := by
  simp [latest, Request.writes]

theorem latest_write_of_ne (h : sectorNumber' ≠ sectorNumber) :
    latest disk sectorNumber (history ++ [.write sectorNumber' data]) =
      latest disk sectorNumber history := by
  simp [latest, Request.writes, h]

end

/-- What the requests have done to the disk, and what the calls of `ReadSector` have got. -/
structure Data.Sound (disk : Disk) (pc : Tid → Pc) (d : Data) : Prop where
  length : d.history.length = d.device.issuers.length
  active : d.active = true → d.device.pending ≠ []
  contents : ∀ sectorNumber, OnDisk sectorNumber → ∀ k < SectorSize,
    d.disk (sectorNumber.toNat * SectorSize + k) = latest disk sectorNumber d.history k
  read : ∀ i sectorNumber data, d.history[i]? = some (.read sectorNumber data) → ∀ k < SectorSize,
    data k = latest disk sectorNumber (d.history.take i) k
  reading : ∀ t i data, pc t = .readDone i data → ∃ s, d.history[i]? = some (.read s data)
  reads : ∀ i data, (i, data) ∈ d.reads → ∃ s, d.history[i]? = some (.read s data)
  returned : ∀ i ∈ d.returned, i ∈ d.device.completed

namespace Data.Sound

variable {disk disk' : Disk} {pcs : Tid → Pc} {r : Request}

theorem new (disk : Disk) : (Data.new disk).Sound disk fun _ => .out where
  length := rfl
  active := by simp [Data.new]
  contents _ _ _ _ := rfl
  read := by simp [Data.new]
  reading := by simp
  reads := by simp [Data.new]
  returned := by simp [Data.new]

/-- A thread goes on without a request. -/
theorem goes (h : d.Sound disk pcs) (hpc : ∀ i data, pc ≠ .readDone i data) :
    d.Sound disk (Function.update pcs t pc) where
  length := h.length
  active := h.active
  contents := h.contents
  read := h.read
  reading := by
    intro u i data hu
    by_cases hut : u = t
    · subst hut
      rw [Function.update_self] at hu
      exact absurd hu (hpc i data)
    · rw [Function.update_of_ne hut] at hu
      exact h.reading u i data hu
  reads := h.reads
  returned := h.returned

/-- A request that has got what is on the disk, and the disk after it. -/
theorem request (h : d.Sound disk pcs)
    (hdisk : ∀ sectorNumber, OnDisk sectorNumber → ∀ k < SectorSize,
      disk' (sectorNumber.toNat * SectorSize + k) = latest disk sectorNumber (d.history ++ [r]) k)
    (hread : ∀ sectorNumber data, r = .read sectorNumber data → ∀ k < SectorSize,
      data k = latest disk sectorNumber d.history k)
    (hpc : ∀ i data, pc = .readDone i data → i = d.device.issuers.length ∧ ∃ s, r = .read s data) :
    ({ d with disk := disk' }.request t r).Sound disk (Function.update pcs t pc) := by
  have hnew : (d.history ++ [r])[d.device.issuers.length]? = some r := by
    rw [← h.length, List.getElem?_concat_length]
  have hold : ∀ {i : ℕ} {r' : Request}, d.history[i]? = some r' →
      (d.history ++ [r])[i]? = some r' := by
    intro i r' hi
    rw [List.getElem?_append_left (List.getElem?_eq_some_iff.1 hi).1]
    exact hi
  refine ⟨?_, ?_, hdisk, ?_, ?_, ?_, h.returned⟩
  · simp [Data.request, Device.issue, h.length]
  · intro _
    simp [Data.request, Device.issue]
  · intro i s data hi k hk
    simp only [Data.request] at hi ⊢
    by_cases hlt : i < d.history.length
    · rw [List.getElem?_append_left hlt] at hi
      rw [List.take_append_of_le_length hlt.le]
      exact h.read i s data hi k hk
    · have hlen := (List.getElem?_eq_some_iff.1 hi).1
      rw [List.length_append, List.length_singleton] at hlen
      obtain rfl : i = d.history.length := by omega
      rw [List.getElem?_concat_length] at hi
      rw [List.take_append_of_le_length le_rfl, List.take_length]
      exact hread s data (Option.some.inj hi) k hk
  · intro u i data hu
    by_cases hut : u = t
    · subst hut
      rw [Function.update_self] at hu
      obtain ⟨rfl, s, rfl⟩ := hpc i data hu
      exact ⟨s, hnew⟩
    · rw [Function.update_of_ne hut] at hu
      obtain ⟨s, hs⟩ := h.reading u i data hu
      exact ⟨s, hold hs⟩
  · intro i data hmem
    obtain ⟨s, hs⟩ := h.reads i data hmem
    exact ⟨s, hold hs⟩

/-- The own code of a thread. A thread that returns has seen the interrupt of its request. -/
theorem move (h : d.Sound disk pcs) (hpc : pcs t = pc) (hmove : Move t d pc o pc' d')
    (hserved : ∀ i, pc.waits = some i → i ∈ d.device.completed) :
    d'.Sound disk (Function.update pcs t pc') := by
  cases hmove with
  | callRead sectorNumber data => exact h.goes (by simp)
  | callWrite sectorNumber data => exact h.goes (by simp)
  | other o ho => exact h.goes (by simp)
  | read sectorNumber data hactive hsector data' hdata =>
      refine h.request ?_ ?_ ?_
      · intro s hs k hk
        rw [latest_read]
        exact h.contents s hs k hk
      · rintro s data' ⟨⟩ k hk
        rw [hdata k hk]
        exact h.contents sectorNumber hsector k hk
      · rintro i data' ⟨⟩
        exact ⟨rfl, sectorNumber, rfl⟩
  | readDone request data =>
      obtain ⟨s, hs⟩ := h.reading t request data hpc
      have hgoes : d.Sound disk (Function.update pcs t .out) := h.goes (by simp)
      refine ⟨h.length, h.active, h.contents, h.read, hgoes.reading, ?_, ?_⟩
      · intro i data' hmem
        simp only [List.mem_append, List.mem_singleton, Prod.mk.injEq] at hmem
        rcases hmem with hmem | ⟨rfl, rfl⟩
        · exact h.reads i data' hmem
        · exact ⟨s, hs⟩
      · intro i hmem
        simp only [List.mem_append, List.mem_singleton] at hmem
        rcases hmem with hmem | rfl
        · exact h.returned i hmem
        · exact hserved i rfl
  | write sectorNumber data hactive hsector =>
      refine h.request ?_ (by simp) (by simp)
      intro s hs k hk
      by_cases hss : sectorNumber = s
      · subst hss
        rw [latest_write, splice_add hk]
      · have hblock : s.toNat ≠ sectorNumber.toNat := by
          unfold OnDisk at hsector hs
          omega
        rw [latest_write_of_ne hss, splice_block hblock hk]
        exact h.contents s hs k hk
  | writeDone request =>
      have hgoes : d.Sound disk (Function.update pcs t .out) := h.goes (by simp)
      refine ⟨h.length, h.active, h.contents, h.read, hgoes.reading, h.reads, ?_⟩
      intro i hmem
      simp only [List.mem_append, List.mem_singleton] at hmem
      rcases hmem with hmem | rfl
      · exact h.returned i hmem
      · exact hserved i rfl

theorem handleInterrupt (h : d.Sound disk pcs) (i : ℕ) : (d.handleInterrupt i).Sound disk pcs where
  length := h.length
  active := by simp [Data.handleInterrupt]
  contents := h.contents
  read := h.read
  reading := h.reading
  reads := h.reads
  returned j hj := List.mem_append_left _ (h.returned j hj)

end Data.Sound

open Kernel

variable {k : Kernel Pc Data} {disk : Disk} {initialValue : ℕ → ℤ}

theorem runs_device (hr : Runs client .out (Data.new disk)
    (Function.update initialValue semaphore 0) k) :
    Device.Sound Data.device Pc.waits k.pc k.data :=
  Device.sound drives rfl (Function.update_self ..) hr

theorem runs_sound (hr : Runs client .out (Data.new disk)
    (Function.update initialValue semaphore 0) k) :
    k.data.Sound disk k.pc := by
  refine hr.program_invariant (I := fun pcs d => d.Sound disk pcs) start_of_fork (.new disk) ?_ ?_
  · intro k a o pc d hr hi hnil hnext
    refine hi.move rfl (move_of_next hnext) ?_
    intro i hwaits
    exact (runs_device hr).served drives rfl (Function.update_self ..) hr hwaits hnil
  · intro k a sems d hr hi hhandler
    rcases handler_cases hhandler with ⟨i, -, rfl, -⟩ | ⟨rfl, -⟩
    · exact hi.handleInterrupt i
    · exact hi

/-- The device is idle when a thread makes a request. -/
theorem not_active (h : k.data.Sound disk k.pc)
    (hr : Runs client .out (Data.new disk) (Function.update initialValue semaphore 0) k)
    {t : Tid} (hin : (k.pc t).inside = true) (hnil : k.stack t = []) : k.data.active = false := by
  have hidle := (runs_device hr).idle drives rfl (Function.update_self ..) hr hin hnil
  cases hactive : k.data.active with
  | false => rfl
  | true => exact absurd hidle (h.active hactive)

/-- For any number of threads, and whenever the interrupts of the disk come: `ASSERT(!active)` does
not fail; a call returns after the interrupt of its own request; the semaphore has no units when no
call is in progress; and `ReadSector` returns the data of the latest write to the sector, in the
order of the requests. -/
theorem synchDisk_serialised (disk : Disk) (initialValue : ℕ → ℤ) (k : Kernel Pc Data)
    (h : Runs client .out (Data.new disk) (Function.update initialValue semaphore 0) k) :
    (∀ t a, k.stack t = [] → code t (k.pc t) k.data a ≠ .error .active) ∧
      (∀ i ∈ k.data.returned, i ∈ k.data.device.completed) ∧
        ((∀ t, k.pc t = .out) → k.value semaphore = 0) ∧
          ∀ i data, (i, data) ∈ k.data.reads →
            ∃ sectorNumber, k.data.history[i]? = some (.read sectorNumber data) ∧
              ∀ j < SectorSize, data j = latest disk sectorNumber (k.data.history.take i) j := by
  have hk := runs_sound h
  refine ⟨?_, hk.returned, ?_, ?_⟩
  · intro t a hnil hcode
    have hactive : (k.pc t).inside = true → k.data.active = false :=
      fun hin => not_active hk h hin hnil
    cases hpc : k.pc t with
    | out =>
        rw [hpc] at hcode
        cases a with
        | other o =>
            simp only [code, outside] at hcode
            split at hcode <;> cases hcode
        | _ => cases hcode
    | read sectorNumber data =>
        rw [hpc] at hcode hactive
        simp only [code, Data.readRequest, hactive rfl, Bool.false_eq_true, if_false] at hcode
        split at hcode
        · rename_i e he
          split at he <;> cases he
          cases hcode
        · cases hcode
    | readDone request data =>
        rw [hpc] at hcode
        cases hcode
    | write sectorNumber data =>
        rw [hpc] at hcode hactive
        simp only [code, Data.writeRequest, hactive rfl, Bool.false_eq_true, if_false] at hcode
        split at hcode
        · rename_i e he
          split at he <;> cases he
          cases hcode
        · cases hcode
    | writeDone request =>
        rw [hpc] at hcode
        cases hcode
  · intro hout
    refine ((runs_device h).at_rest drives rfl (Function.update_self ..) h ?_).1
    intro t
    rw [hout t]
    rfl
  · intro i data hmem
    obtain ⟨s, hs⟩ := hk.reads i data hmem
    exact ⟨s, hs, hk.read i s data hs⟩

/-- The interrupt of the request `i` while the CPU is idle, and the thread that it wakes. -/
def completes (i : ℕ) : List (Label Act) := .interrupt (.diskDone i) :: List.replicate 6 .go

/-- The main thread writes a sector. Another thread reads it, and waits for the lock; while this
request is in progress, the main thread waits for the lock in its turn, to write the sector again.
-/
def contended : List (Label Act) :=
  turns [(Act.other (.fork 1 0 .out), 3), (.writeSector 3 (fun _ => 7), 4), (.other .yield, 4),
    (.readSector 3 (fun _ => 0), 0)] ++
    completes 0 ++
    turns [(Act.other .yield, 3), (.other .yield, 6), (.other .yield, 5),
      (.writeSector 3 (fun _ => 9), 0)] ++
    completes 1 ++ turns [(Act.other .yield, 3)]

theorem synchDisk_serialised_write :
    ∃ k, Runs client .out (Data.new fun _ => 0) (Function.update (fun _ => 0) semaphore 0) k ∧
      k.data.returned = [0, 1] ∧ (∃ data, (1, data) ∈ k.data.reads ∧ data 5 = 7) ∧
        ∀ i ∈ k.data.returned, i ∈ k.data.device.completed := by
  have hpass : passes (step client)
      (init .out (Data.new fun _ => 0) (Function.update (fun _ => 0) semaphore 0)) contended
      (fun k => k.data.returned = [0, 1] && k.data.reads.map (fun r => (r.1, r.2 5)) = [(1, 7)]) =
        true := by
    decide +kernel
  obtain ⟨k, hk, hend⟩ := exists_of_passes _ hpass
  rw [Bool.and_eq_true, decide_eq_true_eq, decide_eq_true_eq] at hend
  refine ⟨k, hk, hend.1, ?_, (synchDisk_serialised _ _ k hk).2.1⟩
  have hmem : ((1, 7) : ℕ × Byte) ∈ k.data.reads.map fun r => (r.1, r.2 5) := by simp [hend.2]
  obtain ⟨⟨i, data⟩, hdata, heq⟩ := List.mem_map.1 hmem
  obtain ⟨rfl, hvalue⟩ := Prod.mk.inj heq
  exact ⟨data, hdata, hvalue⟩

end SynchDisk

end Filesys

end Nachos
