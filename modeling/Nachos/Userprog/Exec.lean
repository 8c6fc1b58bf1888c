import Nachos.Userprog.Paging
import Nachos.Userprog.PipeEnds

/-!
# The system call Exec

`Exec2` of `exception.cc` with all its exits, for a caller that no other thread runs beside: the
name and the arguments are read from the memory of the caller, page faults included, then come the
pipes, the slot of the backing store, the address space, the backing store, the `Fork` and
the slot of the thread. A process is known by its number, and the new thread by that of the process
it would be.

What the rest of the machine decides is an argument: the files, what an uninitialised object
holds, and whether the machine gets through the destructor `~AddrSpace` in a branch where its
members have not been set or `executable` has been deleted before.
-/

namespace Nachos

open Lib

namespace Exec

/-- What the rest of the machine decides. -/
structure Environment where
  lru : Bool
  /-- `fileSystem->Open`. -/
  opens : List Byte → Option File
  /-- `fileSystem->Create` of the file for the backing store. -/
  created : Bool
  /-- What the stack holds at a request for memory, by the number of requests before. -/
  stack : ℕ → ℕ → Byte
  /-- What the stack holds in `AddrSpace::Initialize`. -/
  header : ℕ → Byte
  /-- The words of the new `BitMap`. -/
  words : ℕ → BitVec 32
  /-- The machine gets through `~AddrSpace`. -/
  survives : Bool

structure Shared where
  vm : VM
  pipes : Pipes
  readyList : List ℕ

/-- The new thread is not one that there is. -/
structure System extends Shared where
  ready_lt : ∀ t ∈ readyList, t < vm.numProcs

/-! ## Reading -/

/-- The loop that reads a string, for at most `k` characters from the index `i` on. -/
def readString (read : VM → BitVec 32 → Except Fault (Got (BitVec 32) × VM)) (str : BitVec 32) :
    ℕ → ℕ → List Byte → VM → Except Fault (Got (List Byte) × VM)
  | 0, _, _, vm => .ok (.refused, vm)
  | k + 1, i, arr, vm =>
      match read vm (str + BitVec.ofNat 32 i) with
      | .error f => .error f
      | .ok (.refused, vm) => .ok (.refused, vm)
      | .ok (.killed, vm) => .ok (.killed, vm)
      | .ok (.got ch, vm) =>
          if ch.setWidth 8 = 0#8 then
            .ok (.got arr, vm)
          else
            readString read str k (i + 1) (arr ++ [ch.setWidth 8]) vm

def MAXSIZE : ℕ := 100

/-- The first loop of `Exec2`. -/
def readName (env : Environment) (p : ℕ) (name : BitVec 32) (vm : VM) :
    Except Fault (Got (List Byte) × VM) :=
  readString (VM.readMemTwice env.lru env.stack p 1) name MAXSIZE 0 [] vm

def MAX : ℕ := 50

/-- `readArgument`. -/
def readArgument (env : Environment) (p : ℕ) (str : BitVec 32) (vm : VM) :
    Except Fault (Got (List Byte) × VM) :=
  readString (VM.readMem env.lru env.stack p 1) str MAX 0 [] vm

/-- The second loop of `Exec2`, for `k` arguments from the index `i` on. -/
def readArguments (env : Environment) (p : ℕ) (argv : BitVec 32) :
    ℕ → ℕ → List (List Byte) → VM → Except Fault (Got (List (List Byte)) × VM)
  | 0, _, arr, vm => .ok (.got arr, vm)
  | k + 1, i, arr, vm =>
      match vm.readMemTwice env.lru env.stack p 4 (argv + BitVec.ofNat 32 (4 * i)) with
      | .error f => .error f
      | .ok (.refused, vm) => .ok (.refused, vm)
      | .ok (.killed, vm) => .ok (.killed, vm)
      | .ok (.got ch, vm) =>
          match readArgument env p ch vm with
          | .error f => .error f
          | .ok (.refused, vm) => .ok (.refused, vm)
          | .ok (.killed, vm) => .ok (.killed, vm)
          | .ok (.got arg, vm) => readArguments env p argv k (i + 1) (arr ++ [arg]) vm

/-! ## The call -/

/-- The executable that the name leads to. -/
def openExecutable (env : Environment) (p : ℕ) (name : BitVec 32) (vm : VM) :
    Except Fault (Got File × VM) :=
  match readName env p name vm with
  | .error f => .error f
  | .ok (.refused, vm) => .ok (.refused, vm)
  | .ok (.killed, vm) => .ok (.killed, vm)
  | .ok (.got internalFilename, vm) =>
      match env.opens internalFilename with
      | none => .ok (.refused, vm)
      | some executable => .ok (.got executable, vm)

/-- The state after a `Fork` whose thread has got no slot: its backing store and its address
space have been deleted. -/
def Shared.abandoned (s : Shared) (storeID : ℕ) : Shared :=
  { s with
    vm :=
      { s.vm with
        procs := Function.update s.vm.procs s.vm.numProcs .none
        numProcs := s.vm.numProcs + 1
        files := Function.update s.vm.files (BackingStore.filenameOf storeID) .empty }
    readyList := s.readyList ++ [s.vm.numProcs] }

/-- `Exec2` from the slot of the backing store on: the value it returns and the new state. -/
def startProcess (env : Environment) (s : Shared) (executable : File) :
    Except Fault (ℤ × Shared) :=
  match s.vm.storeTable.alloc s.vm.numProcs with
  | (storeID, storeTable) =>
      -- the slot is given back by `Release`, or by the destructor of the backing store
      let back : Shared := { s with vm := { s.vm with storeTable := storeTable.release storeID } }
      if storeID = -1 then
        .ok (0, s)
      else
        match AddrSpace.initialize executable env.header with
        | none => if env.survives then .ok (0, back) else .error .useAfterFree
        | some space =>
            match BitMap.new space.numPages env.words with
            | .error f => .error f
            | .ok pages =>
                if env.created = false then
                  if env.survives then .ok (0, back) else .error .useAfterFree
                else
                  match s.vm.tablePtr.alloc s.vm.numProcs with
                  | (processID, tablePtr) =>
                      if processID = -1 then
                        if env.survives then
                          .ok (0, back.abandoned storeID.toNat)
                        else
                          .error .useAfterFree
                      else
                        .ok (processID + 1,
                          { s with
                            vm := s.vm.started space pages storeID.toNat storeTable tablePtr
                            readyList := s.readyList ++ [s.vm.numProcs] })

/-- The caller exits; there is no value to return. -/
def die (s : Shared) (p : ℕ) : Except Fault (Option ℤ × Shared) :=
  match s.pipes.sysCallExit p with
  | .error f => .error f
  | .ok pipes => .ok (none, { s with pipes := pipes })

/-- `Exec2` called by `p`: the value it returns, if it does, and the new state. -/
def exec2 (env : Environment) (s : Shared) (p : ℕ) (name argc argv willJoin : BitVec 32) :
    Except Fault (Option ℤ × Shared) :=
  match openExecutable env p name s.vm with
  | .error f => .error f
  | .ok (.refused, vm) => .ok (some 0, { s with vm := vm })
  | .ok (.killed, vm) => die { s with vm := vm } p
  | .ok (.got executable, vm) =>
      match s.pipes.setUp s.vm.numProcs willJoin with
      | .error f => .error f
      | .ok pipes =>
          -- `new char * [argc+1]`, whose first element is written
          if (argc + 1).toInt ≤ 0 then
            .error .wildAddress
          else
            match readArguments env p argv argc.toNat 0 [] vm with
            | .error f => .error f
            | .ok (.refused, vm) => .ok (some 0, { s with vm := vm, pipes := pipes })
            | .ok (.killed, vm) => die { s with vm := vm, pipes := pipes } p
            | .ok (.got _, vm) =>
                match startProcess env { s with vm := vm, pipes := pipes } executable with
                | .error f => .error f
                | .ok (id, s) => .ok (some id, s)

end Exec

/-! ## What reading keeps -/

namespace VM

/-- The tables and the processes that there are. -/
structure SameTables (s s' : VM) : Prop where
  tablePtr : s'.tablePtr = s.tablePtr
  storeTable : s'.storeTable = s.storeTable
  numProcs : s'.numProcs = s.numProcs

variable {s s' s'' : VM} {p v : ℕ}

theorem SameTables.refl (s : VM) : SameTables s s := ⟨rfl, rfl, rfl⟩

theorem SameTables.trans (h : SameTables s s') (h' : SameTables s' s'') : SameTables s s'' :=
  ⟨h'.tablePtr.trans h.tablePtr, h'.storeTable.trans h.storeTable, h'.numProcs.trans h.numProcs⟩

theorem sameTables_writeBack (h : s.writeBack p v = .ok s') : SameTables s s' := by
  unfold writeBack at h
  simp only at h
  split at h
  · cases h
  · split at h
    · cases h
    · cases h
      exact ⟨rfl, rfl, rfl⟩

theorem sameTables_pageOut (h : s.pageOut p v = .ok s') : SameTables s s' := by
  unfold pageOut at h
  split at h
  · cases h
  · rename_i s₁ hs₁
    cases h
    split at hs₁
    · exact (sameTables_writeBack hs₁).trans ⟨rfl, rfl, rfl⟩
    · cases hs₁
      exact ⟨rfl, rfl, rfl⟩

theorem sameTables_freePage {physPageNum : ℤ} (h : s.freePage physPageNum = .ok s') :
    SameTables s s' := by
  unfold freePage at h
  split at h
  · cases h
  · cases h
    exact ⟨rfl, rfl, rfl⟩

theorem sameTables_evict {lru : Bool} (h : s.evict lru = .ok s') : SameTables s s' := by
  unfold evict evictPage at h
  split at h
  · cases h
  · rename_i physicalPage s₁ hs₁
    split at hs₁
    · cases hs₁
    · cases hs₁
    · simp only at hs₁
      split at hs₁
      · cases hs₁
      · rename_i hout
        cases hs₁
        have hout := sameTables_pageOut hout
        exact SameTables.trans ⟨hout.tablePtr, hout.storeTable, hout.numProcs⟩
          (sameTables_freePage h)

theorem sameTables_pageIn (h : s.pageIn p v = .ok s') : SameTables s s' := by
  unfold pageIn at h
  split at h
  · cases h
  · split at h
    · cases h
    · cases h
      exact ⟨rfl, rfl, rfl⟩

theorem sameTables_fillPage {noffH : NoffHeader} (h : s.fillPage p v noffH = .ok s') :
    SameTables s s' := by
  unfold fillPage at h
  simp only at h
  split at h
  · cases h
  · split at h
    · cases h
    · split at h
      · cases h
      · cases h
        exact ⟨rfl, rfl, rfl⟩
    · split at h
      · cases h
      · rename_i hin
        cases h
        have hin := sameTables_pageIn hin
        exact ⟨hin.tablePtr, hin.storeTable, hin.numProcs⟩

theorem sameTables_placePage {allocpage : ℤ} {noffH : NoffHeader}
    (h : s.placePage p v allocpage noffH = .ok s') : SameTables s s' := by
  unfold placePage at h
  split at h
  · cases h
  · simp only at h
    split at h
    · cases h
    · rename_i hfill
      cases h
      have hfill := sameTables_fillPage hfill
      exact ⟨hfill.tablePtr, hfill.storeTable, hfill.numProcs⟩

theorem sameTables_allocVirtualPage {virtualAddr : BitVec 32} {stack : ℕ → Byte} {val : ℤ}
    (h : s.allocVirtualPage p virtualAddr stack = .ok (val, s')) : SameTables s s' := by
  unfold allocVirtualPage allocPage at h
  simp only at h
  split at h
  · cases h
    exact .refl s
  · split at h
    · cases h
    · rename_i halloc
      split at h
      · cases h
      · rename_i hplace
        cases h
        split at halloc
        · cases halloc
        · cases halloc
          have hplace := sameTables_placePage hplace
          exact ⟨hplace.tablePtr, hplace.storeTable, hplace.numProcs⟩

theorem sameTables_pageFault {lru : Bool} {virtualAddr : BitVec 32} {stack : ℕ → Byte} {val : ℤ}
    (h : s.pageFault lru p virtualAddr stack = .ok (val, s')) : SameTables s s' := by
  unfold pageFault at h
  simp only at h
  split at h
  · cases h
  · rename_i s₁ hs₁
    have halloc := sameTables_allocVirtualPage h
    split at hs₁
    · have hroom := sameTables_evict hs₁
      exact SameTables.trans ⟨hroom.tablePtr, hroom.storeTable, hroom.numProcs⟩ halloc
    · cases hs₁
      exact ⟨halloc.tablePtr, halloc.storeTable, halloc.numProcs⟩

/-- A request keeps the tables, unless it is the end of the process. -/
theorem sameTables_access {lru : Bool} {r : Request} {stack : ℕ → Byte}
    (h : s.access lru p r stack = .ok s') :
    ((∃ log, s'.log = ⟨p, r, .killed⟩ :: log) ∧ s'.numProcs = s.numProcs) ∨ SameTables s s' := by
  unfold access at h
  split at h
  · cases h
  · refine .inr ?_
    unfold transfer at h
    split at h
    · split at h
      · cases h
      · cases h
        exact ⟨rfl, rfl, rfl⟩
    · split at h
      · cases h
      · cases h
        exact ⟨rfl, rfl, rfl⟩
  · split at h
    · cases h
    · rename_i hfault
      split at h
      · cases h
        exact .inl ⟨⟨_, rfl⟩, (sameTables_pageFault hfault).numProcs⟩
      · cases h
        exact .inr ((sameTables_pageFault hfault).trans ⟨rfl, rfl, rfl⟩)
  · cases h
    exact .inl ⟨⟨_, rfl⟩, rfl⟩

end VM

namespace Exec

variable {env : Environment} {p : ℕ} {vm vm' : VM}

/-- What reading leaves: the slots of a caller that has been killed are gone. -/
def Leaves {α : Type} (g : Got α) (vm vm' : VM) : Prop :=
  vm'.numProcs = vm.numProcs ∧ (g ≠ .killed → VM.SameTables vm vm')

theorem Leaves.of_same {α : Type} {g : Got α} (h : VM.SameTables vm vm') : Leaves g vm vm' :=
  ⟨h.numProcs, fun _ => h⟩

theorem Leaves.trans {α : Type} {g : Got α} {vm₀ : VM} (h₀ : VM.SameTables vm₀ vm)
    (h : Leaves g vm vm') : Leaves g vm₀ vm' :=
  ⟨h.1.trans h₀.numProcs, fun hg => h₀.trans (h.2 hg)⟩

/-- Another call that is killed, too, leaves the same. -/
theorem Leaves.of_killed {α β : Type} (h : Leaves (.killed : Got α) vm vm') :
    Leaves (.killed : Got β) vm vm' :=
  ⟨h.1, fun hg => absurd rfl hg⟩

theorem readMem_leaves {size : ℕ} {addr : BitVec 32} {g : Got (BitVec 32)}
    (h : vm.readMem env.lru env.stack p size addr = .ok (g, vm')) : Leaves g vm vm' := by
  unfold VM.readMem at h
  split at h
  · cases h
  · rename_i vm₁ haccess
    have hvm : vm₁ = vm' := by
      split at h <;> cases h <;> rfl
    subst hvm
    rcases VM.sameTables_access haccess with ⟨⟨log, hlog⟩, hnum⟩ | hsame
    · rw [hlog] at h
      cases h
      exact ⟨hnum, fun hg => absurd rfl hg⟩
    · exact .of_same hsame

theorem readMemTwice_leaves {size : ℕ} {addr : BitVec 32} {g : Got (BitVec 32)}
    (h : vm.readMemTwice env.lru env.stack p size addr = .ok (g, vm')) : Leaves g vm vm' := by
  unfold VM.readMemTwice at h
  split at h
  · rename_i hfirst
    exact .trans ((readMem_leaves hfirst).2 (by simp)) (readMem_leaves h)
  · exact readMem_leaves h

theorem readString_leaves {read : VM → BitVec 32 → Except Fault (Got (BitVec 32) × VM)}
    (hread : ∀ {vm vm' addr g}, read vm addr = .ok (g, vm') → Leaves g vm vm')
    {str : BitVec 32} {k i : ℕ} {arr : List Byte} {g : Got (List Byte)}
    (h : readString read str k i arr vm = .ok (g, vm')) : Leaves g vm vm' := by
  induction k generalizing i arr vm with
  | zero =>
      cases h
      exact .of_same (.refl _)
  | succ k ih =>
      unfold readString at h
      split at h
      · cases h
      · rename_i hr
        cases h
        exact .of_same ((hread hr).2 (by simp))
      · rename_i hr
        cases h
        exact (hread hr).of_killed
      · rename_i hr
        have hfirst := (hread hr).2 (by simp)
        split at h
        · cases h
          exact .of_same hfirst
        · exact .trans hfirst (ih h)

theorem readArguments_leaves {argv : BitVec 32} {k i : ℕ} {arr : List (List Byte)}
    {g : Got (List (List Byte))} (h : readArguments env p argv k i arr vm = .ok (g, vm')) :
    Leaves g vm vm' := by
  induction k generalizing i arr vm with
  | zero =>
      cases h
      exact .of_same (.refl _)
  | succ k ih =>
      unfold readArguments at h
      split at h
      · cases h
      · rename_i hr
        cases h
        exact .of_same ((readMemTwice_leaves hr).2 (by simp))
      · rename_i hr
        cases h
        exact (readMemTwice_leaves hr).of_killed
      · rename_i hr
        have hfirst := (readMemTwice_leaves hr).2 (by simp)
        split at h
        · cases h
        · rename_i hs
          cases h
          exact .of_same (hfirst.trans ((readString_leaves readMem_leaves hs).2 (by simp)))
        · rename_i hs
          cases h
          exact (Leaves.trans hfirst (readString_leaves readMem_leaves hs)).of_killed
        · rename_i hs
          exact .trans (hfirst.trans ((readString_leaves readMem_leaves hs).2 (by simp))) (ih h)

theorem openExecutable_leaves {name : BitVec 32} {g : Got File}
    (h : openExecutable env p name vm = .ok (g, vm')) : Leaves g vm vm' := by
  unfold openExecutable at h
  split at h
  · cases h
  · rename_i hr
    cases h
    exact .of_same ((readString_leaves readMemTwice_leaves hr).2 (by simp))
  · rename_i hr
    cases h
    exact (readString_leaves readMemTwice_leaves hr).of_killed
  · rename_i hr
    have hsame := (readString_leaves readMemTwice_leaves hr).2 (by simp)
    split at h <;> cases h <;> exact .of_same hsame

/-! ## What a failing Exec leaves -/

/-- A slot for the backing store is free, the header is right and the file can be made. -/
def Prepared (env : Environment) (s : Shared) (executable : File) : Prop :=
  s.vm.storeTable.used ≠ s.vm.storeTable.tableSize ∧
    AddrSpace.initialize executable env.header ≠ none ∧ env.created = true

/-- What `startProcess` comes to. -/
inductive Starts (env : Environment) (s : Shared) (executable : File) :
    Except Fault (ℤ × Shared) → Prop where
  | refused (hprep : ¬ Prepared env s executable)
      (hgoes : s.vm.storeTable.used = s.vm.storeTable.tableSize ∨ env.survives = true) :
      Starts env s executable (.ok (0, s))
  | crashed (hfree : s.vm.storeTable.used ≠ s.vm.storeTable.tableSize)
      (hstop : env.survives = false) : Starts env s executable (.error .useAfterFree)
  | abandoned (hprep : Prepared env s executable)
      (hfull : s.vm.tablePtr.used = s.vm.tablePtr.tableSize) (hsurv : env.survives = true)
      (storeID : ℕ) : Starts env s executable (.ok (0, s.abandoned storeID))
  | started (hprep : Prepared env s executable)
      (hslot : s.vm.tablePtr.used ≠ s.vm.tablePtr.tableSize) (id : ℤ) (s' : Shared) (hid : id ≠ 0)
      (hvm : s.vm.exec executable env.header env.words env.created = .ok s'.vm)
      (hnum : s'.vm.numProcs = s.vm.numProcs + 1)
      (hready : s'.readyList = s.readyList ++ [s.vm.numProcs]) :
      Starts env s executable (.ok (id, s'))

theorem starts_startProcess (env : Environment) (s : Shared) (executable : File) :
    Starts env s executable (startProcess env s executable) := by
  have hfull := s.vm.storeTable.alloc_eq_neg_one_iff s.vm.numProcs
  have hback := s.vm.storeTable.release_alloc s.vm.numProcs
  have hfull' := s.vm.tablePtr.alloc_eq_neg_one_iff s.vm.numProcs
  unfold startProcess
  cases halloc : s.vm.storeTable.alloc s.vm.numProcs with
  | mk storeID storeTable =>
      simp only [halloc] at hfull hback ⊢
      rw [hback]
      by_cases hslot : storeID = -1
      · rw [if_pos hslot]
        exact .refused (fun h => h.1 (hfull.1 hslot)) (.inl (hfull.1 hslot))
      · rw [if_neg hslot]
        have hfree : s.vm.storeTable.used ≠ s.vm.storeTable.tableSize := mt hfull.2 hslot
        cases hinit : AddrSpace.initialize executable env.header with
        | none =>
            cases hsurv : env.survives with
            | false => exact .crashed hfree hsurv
            | true => exact .refused (fun h => h.2.1 hinit) (.inr hsurv)
        | some space =>
            obtain ⟨pages, hnew, -⟩ := BitMap.new_spec space.numPages env.words
            simp only [hnew]
            by_cases hcreated : env.created = false
            · rw [if_pos hcreated]
              cases hsurv : env.survives with
              | false => exact .crashed hfree hsurv
              | true => exact .refused (fun h => absurd h.2.2 (by simp [hcreated])) (.inr hsurv)
            · rw [if_neg hcreated]
              have hprep : Prepared env s executable :=
                ⟨hfree, by simp [hinit], by simpa using hcreated⟩
              cases halloc' : s.vm.tablePtr.alloc s.vm.numProcs with
              | mk processID tablePtr =>
                  simp only [halloc'] at hfull' ⊢
                  by_cases hslot' : processID = -1
                  · rw [if_pos hslot']
                    cases hsurv : env.survives with
                    | false => exact .crashed hfree hsurv
                    | true => exact .abandoned hprep (hfull'.1 hslot') hsurv storeID.toNat
                  · rw [if_neg hslot']
                    refine .started hprep (mt hfull'.2 hslot') _ _ (by omega) ?_ rfl rfl
                    simp only [VM.exec, halloc, if_neg hslot, hinit, hnew, if_neg hcreated,
                      halloc', if_neg hslot']
                    rfl

/-- What a failing Exec should keep. -/
structure Unchanged (s s' : Shared) : Prop where
  storeTable : s'.vm.storeTable = s.vm.storeTable
  tablePtr : s'.vm.tablePtr = s.vm.tablePtr
  freePipe : s'.pipes.freePipe = s.pipes.freePipe
  flags : ∀ q, s.pipes.freePipe = some q → s'.pipes.flags q = s.pipes.flags q
  readyList : ∀ t, t ∈ s'.readyList ↔ t ∈ s.readyList

/-- The call opens `executable`, sets up the pipes and gets through its second loop. -/
structure Reads (env : Environment) (s : Shared) (p : ℕ) (name argc argv willJoin : BitVec 32)
    (executable : File) (g : Got (List (List Byte))) (vm : VM) (pipes : Pipes) : Prop where
  opened : ∃ vm₀, openExecutable env p name s.vm = .ok (.got executable, vm₀) ∧
    readArguments env p argv argc.toNat 0 [] vm₀ = .ok (g, vm)
  setUp : s.pipes.setUp s.vm.numProcs willJoin = .ok pipes
  argc_pos : 0 < (argc + 1).toInt

variable {s s' : Shared} {name argc argv willJoin : BitVec 32} {executable : File}
  {g : Got (List (List Byte))} {pipes : Pipes}

theorem Reads.leaves (h : Reads env s p name argc argv willJoin executable g vm pipes) :
    Leaves g s.vm vm := by
  obtain ⟨vm₀, hopen, hargs⟩ := h.opened
  exact .trans ((openExecutable_leaves hopen).2 (by simp)) (readArguments_leaves hargs)

theorem Reads.exec2 (h : Reads env s p name argc argv willJoin executable g vm pipes) :
    exec2 env s p name argc argv willJoin =
      match g with
      | .refused => .ok (some 0, { s with vm := vm, pipes := pipes })
      | .killed => die { s with vm := vm, pipes := pipes } p
      | .got _ =>
          match startProcess env { s with vm := vm, pipes := pipes } executable with
          | .error f => .error f
          | .ok (id, s) => .ok (some id, s) := by
  obtain ⟨vm₀, hopen, hargs⟩ := h.opened
  have hpos := h.argc_pos
  unfold Exec.exec2
  simp only [hopen, h.setUp]
  rw [if_neg (by omega), hargs]
  cases g <;> rfl

theorem of_die {r : Option ℤ} (h : die s p = .ok (r, s')) :
    r = none ∧ s'.vm = s.vm ∧ s'.readyList = s.readyList := by
  unfold die at h
  split at h
  · cases h
  · cases h
    exact ⟨rfl, rfl, rfl⟩

theorem reads_of_exec2 {r : Option ℤ} (h : exec2 env s p name argc argv willJoin = .ok (r, s')) :
    (∃ vm, openExecutable env p name s.vm = .ok (.refused, vm) ∧ r = some 0 ∧
      s' = { s with vm := vm }) ∨
    (∃ vm, openExecutable env p name s.vm = .ok (.killed, vm) ∧
      die { s with vm := vm } p = .ok (r, s')) ∨
    ∃ executable g vm pipes, Reads env s p name argc argv willJoin executable g vm pipes := by
  unfold exec2 at h
  split at h
  · cases h
  · rename_i vm hopen
    cases h
    exact .inl ⟨vm, hopen, rfl, rfl⟩
  · rename_i vm hopen
    exact .inr (.inl ⟨vm, hopen, h⟩)
  · rename_i executable vm₀ hopen
    refine .inr (.inr ?_)
    split at h
    · cases h
    · rename_i pipes hpipes
      split at h
      · cases h
      · rename_i hpos
        split at h
        · cases h
        · rename_i vm hargs
          exact ⟨executable, .refused, vm, pipes, ⟨vm₀, hopen, hargs⟩, hpipes, by omega⟩
        · rename_i vm hargs
          exact ⟨executable, .killed, vm, pipes, ⟨vm₀, hopen, hargs⟩, hpipes, by omega⟩
        · rename_i args vm hargs
          exact ⟨executable, .got args, vm, pipes, ⟨vm₀, hopen, hargs⟩, hpipes, by omega⟩

/-- The call fails after its pipes and before its `Fork`, and the machine goes on. -/
def FailsBeforeFork (env : Environment) (s : Shared) (p : ℕ)
    (name argc argv willJoin : BitVec 32) : Prop :=
  ∃ executable g vm pipes, Reads env s p name argc argv willJoin executable g vm pipes ∧
    (g = .refused ∨ (∃ args, g = .got args) ∧ ¬ Prepared env s executable ∧
      (s.vm.storeTable.used = s.vm.storeTable.tableSize ∨ env.survives = true))

/-- The call comes to its `Fork`. -/
def Forks (env : Environment) (s : Shared) (p : ℕ) (name argc argv willJoin : BitVec 32) : Prop :=
  ∃ executable args vm pipes,
    Reads env s p name argc argv willJoin executable (.got args) vm pipes ∧
      Prepared env s executable

theorem Unchanged.of_sameTables (hsame : VM.SameTables s.vm vm)
    (hfree : pipes.freePipe = s.pipes.freePipe) (hflags : pipes.flags = s.pipes.flags) :
    Unchanged s { s with vm := vm, pipes := pipes } where
  storeTable := hsame.storeTable
  tablePtr := hsame.tablePtr
  freePipe := hfree
  flags _ _ := congrFun hflags _
  readyList _ := Iff.rfl

theorem Reads.prepared_iff (h : Reads env s p name argc argv willJoin executable g vm pipes)
    (hg : g ≠ .killed) :
    Prepared env { s with vm := vm, pipes := pipes } executable ↔ Prepared env s executable := by
  unfold Prepared
  rw [(h.leaves.2 hg).storeTable]

theorem FailsBeforeFork.exec2 (h : FailsBeforeFork env s p name argc argv willJoin) :
    ∃ vm pipes, s.pipes.setUp s.vm.numProcs willJoin = .ok pipes ∧
      exec2 env s p name argc argv willJoin =
        .ok (some 0, { s with vm := vm, pipes := pipes }) := by
  obtain ⟨executable, g, vm, pipes, hreads, hg⟩ := h
  refine ⟨vm, pipes, hreads.setUp, ?_⟩
  rw [hreads.exec2]
  rcases hg with rfl | ⟨⟨args, rfl⟩, hprep, hgoes⟩
  · rfl
  · have hsame := hreads.leaves.2 (by simp)
    have hprep' := mt (hreads.prepared_iff (by simp)).1 hprep
    have hstarts := starts_startProcess env { s with vm := vm, pipes := pipes } executable
    generalize startProcess env { s with vm := vm, pipes := pipes } executable = r at hstarts
    cases hstarts with
    | refused => rfl
    | crashed hfree hstop =>
        rw [hsame.storeTable] at hfree
        rcases hgoes with hfull | hsurv
        · exact absurd hfull hfree
        · rw [hstop] at hsurv
          cases hsurv
    | abandoned hp => exact absurd hp hprep'
    | started hp => exact absurd hp hprep'

theorem Forks.exec2 (h : Forks env s p name argc argv willJoin) (hsurv : env.survives = true)
    (hfull : s.vm.tablePtr.used = s.vm.tablePtr.tableSize) :
    ∃ s', exec2 env s p name argc argv willJoin = .ok (some 0, s') ∧
      s.vm.numProcs ∈ s'.readyList := by
  obtain ⟨executable, args, vm, pipes, hreads, hprep⟩ := h
  have hsame := hreads.leaves.2 (by simp)
  have hstarts := starts_startProcess env { s with vm := vm, pipes := pipes } executable
  rw [hreads.exec2]
  generalize startProcess env { s with vm := vm, pipes := pipes } executable = r at hstarts
  cases hstarts with
  | refused hp => exact absurd ((hreads.prepared_iff (by simp)).2 hprep) hp
  | crashed _ hstop =>
      rw [hstop] at hsurv
      cases hsurv
  | abandoned =>
      refine ⟨_, rfl, ?_⟩
      rw [← hsame.numProcs]
      simp [Shared.abandoned]
  | started _ hslot =>
      rw [hsame.tablePtr] at hslot
      exact absurd hfull hslot

/-- The ways to return 0. -/
theorem exec2_zero (h : exec2 env s p name argc argv willJoin = .ok (some 0, s')) :
    (∃ vm, VM.SameTables s.vm vm ∧ s' = { s with vm := vm }) ∨
      (FailsBeforeFork env s p name argc argv willJoin ∧
        ∃ vm pipes, VM.SameTables s.vm vm ∧ s.pipes.setUp s.vm.numProcs willJoin = .ok pipes ∧
          s' = { s with vm := vm, pipes := pipes }) ∨
        (Forks env s p name argc argv willJoin ∧ env.survives = true ∧
          s.vm.tablePtr.used = s.vm.tablePtr.tableSize) := by
  rcases reads_of_exec2 h with ⟨vm, hopen, -, rfl⟩ | ⟨vm, -, hdie⟩ |
    ⟨executable, g, vm, pipes, hreads⟩
  · exact .inl ⟨vm, (openExecutable_leaves hopen).2 (by simp), rfl⟩
  · cases (of_die hdie).1
  · rw [hreads.exec2] at h
    cases g with
    | refused =>
        cases h
        exact .inr (.inl ⟨⟨_, _, _, _, hreads, .inl rfl⟩, vm, pipes, hreads.leaves.2 (by simp),
          hreads.setUp, rfl⟩)
    | killed => cases (of_die h).1
    | got args =>
        have hsame := hreads.leaves.2 (by simp)
        have hprep := hreads.prepared_iff (by simp)
        have hstarts := starts_startProcess env { s with vm := vm, pipes := pipes } executable
        generalize startProcess env { s with vm := vm, pipes := pipes } executable = r at hstarts h
        cases hstarts with
        | refused hp hgoes =>
            cases h
            rw [hsame.storeTable] at hgoes
            exact .inr (.inl ⟨⟨_, _, _, _, hreads, .inr ⟨⟨args, rfl⟩, mt hprep.2 hp, hgoes⟩⟩, vm,
              pipes, hsame, hreads.setUp, rfl⟩)
        | crashed => cases h
        | abandoned hp hfull hsurv =>
            rw [hsame.tablePtr] at hfull
            exact .inr (.inr ⟨⟨_, _, _, _, hreads, hprep.1 hp⟩, hsurv, hfull⟩)
        | started _ _ id t hid =>
            cases h
            exact absurd rfl hid

/-- An Exec that returns 0 leaves the tables, the pending pipe and the ready list as they were if
and only if it has no bit for a pipe when it fails after setting up its pipes, and finds a slot for
its thread when it comes to its `Fork`. -/
theorem failed_exec_unchanged_iff (env : Environment) (s : System) (p : ℕ)
    (name argc argv willJoin : BitVec 32) :
    (∀ s', exec2 env s.toShared p name argc argv willJoin = .ok (some 0, s') →
      Unchanged s.toShared s') ↔
    (FailsBeforeFork env s.toShared p name argc argv willJoin → willJoin &&& 6#32 = 0#32) ∧
      (Forks env s.toShared p name argc argv willJoin → env.survives = true →
        s.vm.tablePtr.used < s.vm.tablePtr.tableSize) := by
  constructor
  · intro h
    constructor
    · intro hfails
      obtain ⟨vm, pipes, hpipes, hzero⟩ := hfails.exec2
      by_contra hbit
      exact Pipes.freePipe_setUp hpipes hbit (h _ hzero).freePipe
    · intro hforks hsurv
      refine lt_of_le_of_ne (Table.used_le _) fun hfull => ?_
      obtain ⟨s', hzero, hready⟩ := hforks.exec2 hsurv hfull
      exact lt_irrefl _ (s.ready_lt _ (((h s' hzero).readyList _).1 hready))
  · rintro ⟨hnoPipe, hslot⟩ s' hzero
    rcases exec2_zero hzero with ⟨vm, hsame, rfl⟩ |
      ⟨hfails, vm, pipes, hsame, hpipes, rfl⟩ | ⟨hforks, hsurv, hfull⟩
    · exact .of_sameTables hsame rfl rfl
    · rw [Pipes.setUp_of_no_bit (hnoPipe hfails)] at hpipes
      cases hpipes
      exact .of_sameTables hsame rfl rfl
    · exact absurd hfull (ne_of_lt (hslot hforks hsurv))

/-- A program with the name `p` at the address 0, and at the address 4 a pointer to a string that
does not end. -/
def longArgument : File where
  length := 168
  byte := fun i =>
    if i < 40 then
      [0xad#8, 0xdf#8, 0xba#8, 0#8, 0#8, 0#8, 0#8, 0#8, 40#8, 0#8, 0#8, 0#8, 128#8].getD i 0#8
    else if i = 40 then 112#8
    else if i = 44 then 8#8
    else if i < 48 then 0#8
    else 120#8

/-- The first process before its first instruction. -/
def oneProcess (program : File) : System where
  vm :=
    { numPhysPages := 2
      mainMemory := fun _ => 0
      frames :=
        { numBits := 2
          map := fun _ => 0 }
      coreMap := .new 2
      nextCorePage := 0
      files := fun _ => .empty
      procs := Function.update (fun _ => .none) 0
        { space :=
            { pageTable := fun i => .initial i
              numPages := 13
              currentExecutable := program }
          backingStore :=
            { pages :=
                { numBits := 13
                  map := fun _ => 0 }
              filename := BackingStore.filenameOf 0
              storeID := 0 }
          alive := true }
      numProcs := 1
      tablePtr := ((Table.new 14).alloc 0).2
      storeTable := ((Table.new 14).alloc 0).2
      stats :=
        { numPageFaults := 0
          numPageIns := 0
          numPageOuts := 0 }
      log := [] }
  pipes := (PipeThreads.init PipeThreads.quiet).pipes
  readyList := []
  ready_lt := by simp

def someEnvironment : Environment where
  lru := false
  opens := fun _ => some .empty
  created := true
  stack := fun _ _ => 0
  header := fun _ => 0
  words := fun _ => 0
  survives := true

/-- The call returns 0 and leaves a pipe that is new. -/
def leavesPipe : Except Fault (Option ℤ × Shared) → Bool
  | .ok (some 0, s') => decide (s'.pipes.freePipe = some 0)
  | _ => false

/-- An Exec with an argument that is too long leaves its new pipe behind. -/
theorem failed_exec_leaves_pipe :
    ∃ s', exec2 someEnvironment (oneProcess longArgument).toShared 0 0#32 1#32 4#32 2#32 =
        .ok (some 0, s') ∧
      ¬ Unchanged (oneProcess longArgument).toShared s' := by
  have htest : leavesPipe
      (exec2 someEnvironment (oneProcess longArgument).toShared 0 0#32 1#32 4#32 2#32) = true := by
    decide +kernel
  unfold leavesPipe at htest
  split at htest
  · rename_i s' hzero
    refine ⟨s', hzero, fun h => ?_⟩
    have hfree := h.freePipe
    rw [of_decide_eq_true htest] at hfree
    cases hfree
  · cases htest

end Exec

end Nachos
