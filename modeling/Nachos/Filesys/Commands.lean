import Nachos.Filesys.Volume

/-!
# The commands of the file system

The options `-cp`, `-p`, `-r` and `-t` of `main.cc` with `Copy`, `Print` and `PerformanceTest` of
`fstest.cc`. They open one file at a time, which is the handle 0 here, and move ten bytes at a time
through a buffer in memory. To the user the disk is a shelf of named byte strings: `-cp` puts one
there, `-p` shows it. The performance test always fails, since a file does not grow, and it removes
the user's own file if that is called `TestFile`.
-/

namespace Nachos

open Lib

namespace Filesys

def TransferSize : ℕ := 10

/-- A string constant. -/
def literal (cs : List Char) (k : ℕ) : Byte := (cs.map fun c => BitVec.ofNat 8 c.toNat).getD k 0

def FileName : ℕ → Byte := literal ['T', 'e', 's', 't', 'F', 'i', 'l', 'e']

def Contents : ℕ → Byte := literal ['1', '2', '3', '4', '5', '6', '7', '8', '9', '0']

/-- `strlen(Contents)`. -/
def ContentSize : ℕ := 10

def FileSize : ℕ := ContentSize * 5000

/-- What the commands print, apart from headings and statistics. -/
inductive Message where
  /-- `Copy: couldn't open input file`. -/
  | copyInput
  /-- `Copy: couldn't create output file`. -/
  | copyOutput
  /-- `Print: unable to open file`. -/
  | printOpen
  /-- The bytes of a file. -/
  | contents (bytes : List Byte)
  /-- `Perf test: can't create`. -/
  | cannotCreate
  /-- `Perf test: unable to open`. -/
  | writeOpen
  /-- `Perf test: unable to write`. -/
  | unableToWrite
  /-- `Perf test: unable to open file`. -/
  | readOpen
  /-- `Perf test: unable to read`. -/
  | unableToRead
  /-- `Perf test: unable to remove`. -/
  | unableToRemove
  deriving DecidableEq

namespace World

/-- `fread`: the bytes that it reads, and the memory after it. -/
def fread (w : World) (buffer : ℕ) (bytes : List Byte) : ℕ × World :=
  let amountRead := (bytes.take TransferSize).length
  (amountRead, { w with mem := splice w.mem buffer amountRead fun k => bytes.getD k 0 })

/-- The loop of `Copy`, with what is left of the UNIX file. -/
def copyLoop (buffer : ℕ) (raw : ℕ → ℕ → Byte) (bytes : List Byte) (w : World) :
    Except Fault World :=
  if 0 < (w.fread buffer bytes).1 then
    match (w.fread buffer bytes).2.call
      (.use 0 (.write buffer (w.fread buffer bytes).1 (raw bytes.length))) with
    | .error e => .error e
    | .ok (_, w) => copyLoop buffer raw (bytes.drop TransferSize) w
  else
    .ok w
  termination_by bytes.length
  decreasing_by
    simp only [fread, List.length_take, List.length_drop, TransferSize] at *
    omega

/-- `Copy`, where the UNIX file holds `bytes`, if there is one. -/
def copy (w : World) (buffer : ℕ) (bytes : Option (List Byte)) (name : ℕ → Byte)
    (raw : ℕ → ℕ → ℕ → Byte) : Except Fault (List Message × World) :=
  match bytes with
  | none => return ([.copyInput], w)
  | some bytes => do
      let (created, w) ← w.call (.create name bytes.length (raw 0))
      if created = .success false then
        return ([.copyOutput], w)
      else
        let (opened, w) ← w.call (.openFile 0 name (raw 1))
        assert (opened = .success true)
        let w ← w.copyLoop buffer (raw 2) bytes
        let (_, w) ← w.call (.close 0)
        return ([], w)

/-- What is left of the file that is open. -/
def unread (w : World) : ℕ :=
  match w.handles 0 with
  | none => 0
  | some x => (x.file.hdr.fileLength - x.file.seekPosition).toNat

theorem unread_lt {w w' : World} {into n : ℕ} {numBytes : ℤ}
    (h : w.call (.use 0 (.read into numBytes)) = .ok (.number n, w')) (hn : 0 < n) :
    w'.unread < w.unread := by
  unfold World.call at h
  cases hx : w.handles 0 with
  | none =>
      simp only [hx] at h
      cases h
  | some x =>
      simp only [hx, Session.call, OpenFile.read] at h
      cases hread : x.file.readAt w.fs.disk w.mem into numBytes x.file.seekPosition with
      | error e => simp only [hread] at h; cases h
      | ok r =>
          obtain ⟨result, mem⟩ := r
          simp only [hread] at h
          cases h
          unfold unread
          simp only [hx, Function.update_self]
          unfold OpenFile.readAt at hread
          split at hread
          · cases hread
            omega
          · rename_i hcheck
            obtain ⟨hclip, hpos, hle⟩ := OpenFile.clip_spec hcheck
            simp only at hread
            split at hread
            · cases hread
            · simp only [Except.ok.injEq, Prod.mk.injEq] at hread
              obtain ⟨rfl, -⟩ := hread
              omega

/-- The loop of `Print`. -/
def printLoop (buffer : ℕ) (w : World) : Except Fault (List Byte × World) :=
  match _h : w.call (.use 0 (.read buffer TransferSize)) with
  | .ok (.number amountRead, w') =>
      if _hn : 0 < amountRead then
        match printLoop buffer w' with
        | .error e => .error e
        | .ok (bytes, w'') =>
            .ok ((List.range amountRead).map (fun i => w'.mem (buffer + i)) ++ bytes, w'')
      else
        .ok ([], w')
  | .ok (_, w') => .ok ([], w')
  | .error e => .error e
  termination_by w.unread
  decreasing_by exact unread_lt ‹_› ‹_›

/-- `Print`. -/
def print (w : World) (buffer : ℕ) (name : ℕ → Byte) (raw : ℕ → ℕ → Byte) :
    Except Fault (List Message × World) := do
  let (opened, w) ← w.call (.openFile 0 name raw)
  if opened = .success false then
    return ([.printOpen], w)
  else
    let (bytes, w) ← w.printLoop buffer
    let (_, w) ← w.call (.close 0)
    return ([.contents bytes], w)

/-- `n` turns of the loop of `FileWrite`, with the constant `Contents` at `source`. -/
def writeLoop (source : ℕ) (raw : ℕ → ℕ → Byte) : ℕ → World → Except Fault (List Message × World)
  | 0, w => .ok ([], w)
  | n + 1, w =>
      match w.call (.use 0 (.write source ContentSize (raw n))) with
      | .error e => .error e
      | .ok (.number numBytes, w') =>
          if numBytes < 10 then .ok ([.unableToWrite], w') else writeLoop source raw n w'
      | .ok (_, w') => .ok ([], w')

def fileWrite (w : World) (source : ℕ) (raw : ℕ → ℕ → ℕ → Byte) :
    Except Fault (List Message × World) := do
  let (created, w) ← w.call (.create FileName 0 (raw 0))
  if created = .success false then
    return ([.cannotCreate], w)
  else
    let (opened, w) ← w.call (.openFile 0 FileName (raw 1))
    if opened = .success false then
      return ([.writeOpen], w)
    else
      let (messages, w) ← writeLoop source (raw 2) (FileSize / ContentSize)
        { w with mem := splice w.mem source ContentSize Contents }
      let (_, w) ← w.call (.close 0)
      return (messages, w)

/-- `n` turns of the loop of `FileRead`. -/
def readLoop (buffer : ℕ) : ℕ → World → Except Fault (List Message × World)
  | 0, w => .ok ([], w)
  | n + 1, w =>
      match w.call (.use 0 (.read buffer ContentSize)) with
      | .error e => .error e
      | .ok (.number numBytes, w') =>
          if numBytes < 10 ∨ strncmp (fun k => w'.mem (buffer + k)) Contents ContentSize ≠ 0 then
            .ok ([.unableToRead], w')
          else readLoop buffer n w'
      | .ok (_, w') => .ok ([], w')

def fileRead (w : World) (buffer : ℕ) (raw : ℕ → ℕ → Byte) :
    Except Fault (List Message × World) := do
  let (opened, w) ← w.call (.openFile 0 FileName raw)
  if opened = .success false then
    return ([.readOpen], w)
  else
    let (messages, w) ← readLoop buffer (FileSize / ContentSize) w
    let (_, w) ← w.call (.close 0)
    return (messages, w)

def performanceTest (w : World) (buffer : ℕ) (raw : ℕ → ℕ → ℕ → Byte) :
    Except Fault (List Message × World) := do
  let (written, w) ← w.fileWrite buffer raw
  let (read, w) ← w.fileRead buffer (raw 3)
  let (removed, w) ← w.call (.remove FileName (raw 4))
  return (written ++ read ++ if removed = .success false then [.unableToRemove] else [], w)

end World

/-- The options of `main.cc`, and a new run of Nachos. -/
inductive Command where
  | copy (bytes : Option (List Byte)) (name : ℕ → Byte)
  | print (name : ℕ → Byte)
  | remove (name : ℕ → Byte)
  | performanceTest
  | restart

/-- A file that is copied fits in a header. -/
def Command.Sized : Command → Prop
  | .copy (some bytes) _ => bytes.length ≤ MaxFileSize
  | _ => True

/-- A command, the place of its buffer and what `new` finds in memory. -/
structure Invocation where
  command : Command
  buffer : ℕ
  raw : ℕ → ℕ → ℕ → Byte

namespace World

def command (w : World) (c : Invocation) : Except Fault (List Message × World) :=
  match c.command with
  | .copy bytes name => w.copy c.buffer bytes name c.raw
  | .print name => w.print c.buffer name (c.raw 0)
  | .remove name => do
      let (_, w) ← w.call (.remove name (c.raw 0))
      return ([], w)
  | .performanceTest => w.performanceTest c.buffer c.raw
  | .restart => do
      let (_, w) ← w.call .mount
      return ([], w)

/-- The commands one after the other, with all that they print. -/
def commands : World → List Invocation → Except Fault (List Message × World)
  | w, [] => .ok ([], w)
  | w, c :: cs =>
      match w.command c with
      | .error e => .error e
      | .ok (messages, w') =>
          match commands w' cs with
          | .error e => .error e
          | .ok (messages', w'') => .ok (messages ++ messages', w'')

end World

/-! ## The shelf -/

/-- Byte strings under names. -/
structure Shelf where
  names : Finset Key
  content : Key → List Byte

namespace Shelf

/-- The sectors of the files. -/
def sectors (s : Shelf) : ℕ := ∑ n ∈ s.names, Volume.sectorsOf (s.content n).length

/-- The name is new, and there is room for the file. -/
def Accepts (s : Shelf) (key : Key) (length : ℕ) : Prop :=
  key ∉ s.names ∧ s.names.card < NumDirEntries ∧
    Volume.systemSize + s.sectors + Volume.sectorsOf length ≤ NumSectors

instance (s : Shelf) (key : Key) (length : ℕ) : Decidable (s.Accepts key length) :=
  inferInstanceAs (Decidable (_ ∧ _ ∧ _))

/-- A command on the shelf, with what it prints. -/
def command (s : Shelf) : Command → List Message × Shelf
  | .copy none _ => ([.copyInput], s)
  | .copy (some bytes) name =>
      if s.Accepts (keyOf name) bytes.length then
        ([], ⟨insert (keyOf name) s.names, Function.update s.content (keyOf name) bytes⟩)
      else ([.copyOutput], s)
  | .print name =>
      if keyOf name ∈ s.names then ([.contents (s.content (keyOf name))], s) else ([.printOpen], s)
  | .remove name => ([], { s with names := s.names.erase (keyOf name) })
  | .performanceTest =>
      if keyOf FileName ∈ s.names then
        ([.cannotCreate, .unableToRead], { s with names := s.names.erase (keyOf FileName) })
      else if s.Accepts (keyOf FileName) 0 then ([.unableToWrite, .unableToRead], s)
      else ([.cannotCreate, .readOpen, .unableToRemove], s)
  | .restart => ([], s)

def commands : Shelf → List Command → List Message × Shelf
  | s, [] => ([], s)
  | s, c :: cs =>
      let (messages, s') := s.command c
      let (messages', s'') := commands s' cs
      (messages ++ messages', s'')

def empty : Shelf := ⟨∅, fun _ => []⟩

end Shelf

/-! ## The loops -/

def Content.list (c : Content) : List Byte := (List.range c.length).map c.bytes

namespace World.Shows

variable {w : World} {V : Volume} {key : Key} {cursor : ℕ}

theorem setMem (hs : w.Shows V) (mem : ℕ → Byte) :
    World.Shows { w with mem := mem } { V with mem := mem } :=
  ⟨hs.sound, hs.names, hs.content, hs.handles, hs.opened, rfl⟩

/-- A call of the file that is open. -/
theorem used (hs : w.Shows V) (hV : V.handles 0 = some (key, cursor)) (op : FileOp) :
    ∃ w', w.call (.use 0 op) = .ok (.number (FileArray.call (V.content key).length
        ⟨(V.content key).bytes, cursor, V.mem⟩ op).1, w') ∧
      w'.Shows (V.call (fun _ => 0) (.use 0 op)).2 := by
  obtain ⟨answer, w', stale, hcall, hanswer, hs'⟩ := hs.use 0 op
  refine ⟨w', ?_, ?_⟩
  · rw [hcall, ← hanswer]
    simp only [Volume.call, hV]
  · simpa only [Volume.call, hV] using hs'

theorem write (hs : w.Shows V) (hV : V.handles 0 = some (key, cursor)) (source : ℕ) {n : ℕ}
    (raw : ℕ → Byte) (hlen : cursor + n ≤ (V.content key).length) :
    ∃ w', w.call (.use 0 (.write source n raw)) = .ok (.number n, w') ∧ w'.Shows { V with
      content := Function.update V.content key ⟨(V.content key).length,
        splice (V.content key).bytes cursor n fun k => V.mem (source + k)⟩
      handles := Function.update V.handles 0 (some (key, cursor + n)) } := by
  obtain ⟨w', hcall, hs'⟩ := hs.used hV (.write source n raw)
  have hmoved : OpenFile.moved (V.content key).length n cursor = n := by
    unfold OpenFile.moved
    omega
  simp only [Volume.call, hV, FileArray.call, FileArray.writeAt, hmoved] at hcall hs'
  exact ⟨w', hcall, hs'⟩

theorem read (hs : w.Shows V) (hV : V.handles 0 = some (key, cursor)) (into n : ℕ) :
    ∃ w', w.call (.use 0 (.read into n)) =
        .ok (.number (min n ((V.content key).length - cursor)), w') ∧ w'.Shows { V with
      handles := Function.update V.handles 0
        (some (key, cursor + min n ((V.content key).length - cursor)))
      mem := splice V.mem into (min n ((V.content key).length - cursor)) fun k =>
        (V.content key).bytes (cursor + k) } := by
  obtain ⟨w', hcall, hs'⟩ := hs.used hV (.read into n)
  have hmoved : OpenFile.moved (V.content key).length n cursor =
      min n ((V.content key).length - cursor) := by
    unfold OpenFile.moved
    omega
  simp only [Volume.call, hV, FileArray.call, FileArray.readAt, hmoved,
    Function.update_eq_self] at hcall hs'
  exact ⟨w', hcall, hs'⟩

/-- `Copy` writes all bytes of the UNIX file. -/
theorem copyLoop (hs : w.Shows V) (hV : V.handles 0 = some (key, cursor)) (buffer : ℕ)
    (raw : ℕ → ℕ → Byte) (bytes : List Byte)
    (hlen : cursor + bytes.length = (V.content key).length) :
    ∃ w' mem, w.copyLoop buffer raw bytes = .ok w' ∧ w'.Shows { V with
      content := Function.update V.content key ⟨(V.content key).length,
        splice (V.content key).bytes cursor bytes.length fun k => bytes.getD k 0⟩
      handles := Function.update V.handles 0 (some (key, (V.content key).length))
      mem := mem } := by
  induction hn : bytes.length using Nat.strong_induction_on generalizing w V cursor bytes with
  | _ n ih =>
    subst hn
    rw [World.copyLoop]
    by_cases hnil : bytes = []
    · subst hnil
      refine ⟨w, V.mem, rfl, ?_⟩
      have hcontent : Function.update V.content key ⟨(V.content key).length,
          splice (V.content key).bytes cursor ([] : List Byte).length fun k => [].getD k 0⟩ =
            V.content := by
        rw [List.length_nil, splice_zero]
        exact Function.update_eq_self key _
      have hhandles : Function.update V.handles 0 (some (key, (V.content key).length)) =
          V.handles := by
        rw [← hlen, List.length_nil, Nat.add_zero, ← hV]
        exact Function.update_eq_self 0 _
      rw [hcontent, hhandles]
      exact hs
    · have hpos : 0 < bytes.length := List.length_pos_iff.2 hnil
      obtain ⟨m, hm⟩ : ∃ m, (bytes.take TransferSize).length = m := ⟨_, rfl⟩
      have hsplit : bytes.length = m + (bytes.drop TransferSize).length := by
        rw [← hm, ← List.length_append, List.take_append_drop]
      have hmin : m = min TransferSize bytes.length := by rw [← hm, List.length_take]
      have htransfer : TransferSize = 10 := rfl
      obtain ⟨w₁, hcall, hs₁⟩ := (hs.setMem (splice w.mem buffer m fun k => bytes.getD k 0)).write
        hV buffer (n := m) (raw bytes.length) (by dsimp only; omega)
      have hfread : w.fread buffer bytes =
          (m, { w with mem := splice w.mem buffer m fun k => bytes.getD k 0 }) := by
        rw [← hm]
        rfl
      rw [hfread, if_pos (by omega), hcall]
      have hV₁ : Function.update V.handles 0 (some (key, cursor + m)) 0 = some (key, cursor + m) :=
        Function.update_self ..
      obtain ⟨w', mem, hloop, hs'⟩ := ih (bytes.drop TransferSize).length (by omega) hs₁ hV₁
        (bytes.drop TransferSize) (by simp only [Function.update_self]; omega) rfl
      refine ⟨w', mem, hloop, ?_⟩
      simp only [Function.update_self, Function.update_idem] at hs'
      -- the block that has been written and the rest are one block
      have hblock : splice (V.content key).bytes cursor bytes.length (fun k => bytes.getD k 0) =
          splice (splice (V.content key).bytes cursor m fun k =>
            splice w.mem buffer m (fun k => bytes.getD k 0) (buffer + k)) (cursor + m)
              (bytes.drop TransferSize).length fun k => (bytes.drop TransferSize).getD k 0 := by
        have hwritten : splice (V.content key).bytes cursor m (fun k => bytes.getD k 0) =
            splice (V.content key).bytes cursor m fun k =>
              splice w.mem buffer m (fun k => bytes.getD k 0) (buffer + k) :=
          splice_congr fun k hk => (splice_add (g := fun k => bytes.getD k 0) hk).symm
        rw [hsplit, splice_append, hwritten]
        refine splice_congr fun k hk => ?_
        rw [List.length_drop] at hk
        rw [List.getD_eq_getElem?_getD, List.getD_eq_getElem?_getD, List.getElem?_drop]
        congr 2
        omega
      rw [hblock]
      exact hs'

theorem list_take (c : Content) {cursor m : ℕ} (hm : cursor + m ≤ c.length) :
    (List.range m).map (fun i => c.bytes (cursor + i)) = (c.list.drop cursor).take m := by
  refine List.ext_getElem ?_ fun k hk hk' => ?_
  · simp only [List.length_map, List.length_range, Content.list, List.length_take,
      List.length_drop]
    omega
  · simp [Content.list]

/-- `Print` reads all bytes of the file. -/
theorem printLoop (hs : w.Shows V) (hV : V.handles 0 = some (key, cursor)) (buffer : ℕ) :
    ∃ w' mem cursor', w.printLoop buffer = .ok ((V.content key).list.drop cursor, w') ∧
      w'.Shows { V with
        handles := Function.update V.handles 0 (some (key, cursor'))
        mem := mem } := by
  induction hn : (V.content key).length - cursor using Nat.strong_induction_on
    generalizing w V cursor with
  | _ n ih =>
    subst hn
    obtain ⟨w₁, hcall, hs₁⟩ := hs.read hV buffer TransferSize
    generalize hm : min TransferSize ((V.content key).length - cursor) = m at hcall hs₁
    have htransfer : TransferSize = 10 := rfl
    have hV₁ : Function.update V.handles 0 (some (key, cursor + m)) 0 = some (key, cursor + m) :=
      Function.update_self ..
    rw [World.printLoop]
    split
    · rename_i amountRead _ heq
      rw [hcall] at heq
      cases heq
      split
      · rename_i hpos
        obtain ⟨w', mem, cursor', hloop, hs'⟩ :=
          ih ((V.content key).length - (cursor + m)) (by omega) hs₁ hV₁ rfl
        rw [hloop]
        refine ⟨w', mem, cursor', ?_, ?_⟩
        · have hbytes : (List.range m).map (fun i => w₁.mem (buffer + i)) =
              ((V.content key).list.drop cursor).take m := by
            rw [← list_take _ (by omega), ← hs₁.mem]
            refine List.map_congr_left fun i hi => ?_
            exact splice_add (g := fun k => (V.content key).bytes (cursor + k))
              (List.mem_range.1 hi)
          rw [hbytes, ← List.drop_drop]
          simp only [List.take_append_drop]
        · simpa only [Function.update_idem] using hs'
      · rename_i hzero
        refine ⟨w₁, _, _, ?_, hs₁⟩
        rw [List.drop_eq_nil_of_le]
        simp only [Content.list, List.length_map, List.length_range]
        omega
    · rename_i answer w₂ hanswer heq
      rw [hcall] at heq
      cases heq
      exact absurd rfl (hanswer _)
    · rename_i heq
      rw [hcall] at heq
      cases heq

/-- `FileRead` does not get to the end of its loop. -/
theorem readLoop (hs : w.Shows V) (hV : V.handles 0 = some (key, cursor)) (buffer : ℕ) {n : ℕ}
    (hle : cursor ≤ (V.content key).length)
    (hn : (V.content key).length < cursor + ContentSize * n) :
    ∃ w' mem cursor', w.readLoop buffer n = .ok ([.unableToRead], w') ∧ w'.Shows { V with
        handles := Function.update V.handles 0 (some (key, cursor'))
        mem := mem } := by
  induction n generalizing w V cursor with
  | zero => omega
  | succ n ih =>
      obtain ⟨w₁, hcall, hs₁⟩ := hs.read hV buffer ContentSize
      generalize hm : min ContentSize ((V.content key).length - cursor) = m at hcall hs₁
      have hsize : ContentSize = 10 := rfl
      simp only [World.readLoop, hcall]
      split
      · exact ⟨w₁, _, _, rfl, hs₁⟩
      · rename_i hgo
        rw [not_or, not_lt] at hgo
        have hV₁ : Function.update V.handles 0 (some (key, cursor + m)) 0 =
            some (key, cursor + m) := Function.update_self ..
        rw [Nat.mul_succ] at hn
        obtain ⟨w', mem, cursor', hloop, hs'⟩ := ih hs₁ hV₁ (by dsimp only; omega)
          (by dsimp only; omega)
        refine ⟨w', mem, cursor', hloop, ?_⟩
        simpa only [Function.update_idem] using hs'

end World.Shows

/-! ## The calls of the commands -/

theorem handle_zero (handles : ℕ → Option (Key × ℕ)) (x : Key × ℕ) :
    Function.update handles 0 (some x) 0 = some x := Function.update_self ..

namespace World.Shows

variable {w : World} {V : Volume}

theorem created (hs : w.Shows V) (name : ℕ → Byte) {initialSize : ℕ}
    (hsize : initialSize ≤ MaxFileSize) (raw : ℕ → ℕ → Byte) :
    (V.Accepts (keyOf name) initialSize ∧ ∃ w' stale,
      w.call (.create name initialSize raw) = .ok (.success true, w') ∧ w'.Shows { V with
        names := insert (keyOf name) V.names
        content := Function.update V.content (keyOf name) ⟨initialSize, stale⟩ }) ∨
      ¬ V.Accepts (keyOf name) initialSize ∧ ∃ w',
        w.call (.create name initialSize raw) = .ok (.success false, w') ∧ w'.Shows V := by
  obtain ⟨answer, w', stale, hcall, rfl, hs'⟩ := hs.create name hsize raw
  by_cases haccepts : V.Accepts (keyOf name) initialSize
  · simp only [Volume.call, Int.toNat_natCast, if_pos haccepts] at hcall hs'
    exact .inl ⟨haccepts, w', stale, hcall, hs'⟩
  · simp only [Volume.call, Int.toNat_natCast, if_neg haccepts] at hcall hs'
    exact .inr ⟨haccepts, w', hcall, hs'⟩

theorem openedFile (hs : w.Shows V) (name : ℕ → Byte) (raw : ℕ → ℕ → Byte) :
    (keyOf name ∈ V.names ∧ ∃ w', w.call (.openFile 0 name raw) = .ok (.success true, w') ∧
      w'.Shows { V with handles := Function.update V.handles 0 (some (keyOf name, 0)) }) ∨
      keyOf name ∉ V.names ∧ ∃ w',
        w.call (.openFile 0 name raw) = .ok (.success false, w') ∧ w'.Shows V := by
  obtain ⟨answer, w', stale, hcall, rfl, hs'⟩ := hs.openFile 0 name raw
  by_cases hmem : keyOf name ∈ V.names
  · simp only [Volume.call, if_pos hmem] at hcall hs'
    exact .inl ⟨hmem, w', hcall, hs'⟩
  · simp only [Volume.call, if_neg hmem] at hcall hs'
    exact .inr ⟨hmem, w', hcall, hs'⟩

theorem removed (hs : w.Shows V) (name : ℕ → Byte) (raw : ℕ → ℕ → Byte) :
    (keyOf name ∈ V.names ∧ ∃ w', w.call (.remove name raw) = .ok (.success true, w') ∧
      w'.Shows { V with
        names := V.names.erase (keyOf name)
        handles := fun h => (V.handles h).filter fun x => x.1 ≠ keyOf name }) ∨
      keyOf name ∉ V.names ∧ ∃ w',
        w.call (.remove name raw) = .ok (.success false, w') ∧ w'.Shows V := by
  obtain ⟨answer, w', stale, hcall, rfl, hs'⟩ := hs.remove name raw
  by_cases hmem : keyOf name ∈ V.names
  · simp only [Volume.call, if_pos hmem] at hcall hs'
    exact .inl ⟨hmem, w', hcall, hs'⟩
  · simp only [Volume.call, if_neg hmem] at hcall hs'
    exact .inr ⟨hmem, w', hcall, hs'⟩

/-- The file that is open is closed. -/
theorem closed (hs : w.Shows V) (hV : ∀ h, h ≠ 0 → V.handles h = none) :
    ∃ w', w.call (.close 0) = .ok (.nothing, w') ∧
      w'.Shows { V with handles := fun _ => none } := by
  obtain ⟨answer, w', stale, hcall, rfl, hs'⟩ := hs.close 0
  refine ⟨w', hcall, ?_⟩
  have hnone : Function.update V.handles 0 none = fun _ => none := by
    funext h
    by_cases hh : h = 0
    · subst hh
      exact Function.update_self ..
    · rw [Function.update_of_ne hh, hV h hh]
  simpa only [Volume.call, hnone] using hs'

/-- No file is longer than its header can list the sectors of. -/
theorem length_le (hs : w.Shows V) {key : Key} (hkey : key ∈ V.names) :
    (V.content key).length ≤ MaxFileSize := by
  obtain ⟨i, hi, huse, rfl⟩ := (hs.names key).1 hkey
  have hlen := (hs.content i hi huse).1
  have hfile := hs.sound.consistent.file_wellFormed hi huse
  have hbytes : w.fs.disk.fileLength i ≤ (w.fs.disk.fileHeader i).numSectors.toNat * SectorSize :=
    hfile.numBytes_le
  have hsectors := hfile.numSectors_le
  obtain ⟨hmax, hsize, hdirect⟩ : MaxFileSize = 3840 ∧ SectorSize = 128 ∧ NumDirect = 30 := by
    decide
  rw [hsize] at hbytes
  omega

/-- `FileWrite` writes nothing. -/
theorem fileWrite (hs : w.Shows V) (hV : V.handles = fun _ => none) (source : ℕ)
    (raw : ℕ → ℕ → ℕ → Byte) :
    (V.Accepts (keyOf FileName) 0 ∧ ∃ w' stale mem,
      w.fileWrite source raw = .ok ([.unableToWrite], w') ∧ w'.Shows
        ⟨insert (keyOf FileName) V.names,
          Function.update V.content (keyOf FileName) ⟨0, stale⟩, fun _ => none, mem⟩) ∨
      ¬ V.Accepts (keyOf FileName) 0 ∧ ∃ w',
        w.fileWrite source raw = .ok ([.cannotCreate], w') ∧ w'.Shows V := by
  unfold World.fileWrite
  rcases hs.created FileName (Nat.zero_le _) (raw 0) with
    ⟨haccepts, w₁, stale, hcreate, hs₁⟩ | ⟨hnot, w₁, hcreate, hs₁⟩
  · rw [Nat.cast_zero] at hcreate
    rw [hcreate, ok_bind]
    dsimp only
    rw [if_neg (by simp)]
    rcases hs₁.openedFile FileName (raw 1) with ⟨-, w₂, hopen, hs₂⟩ | ⟨hmem, -⟩
    swap
    · exact absurd (Finset.mem_insert_self _ _) hmem
    obtain ⟨w₃, hcall, hs₃⟩ := (hs₂.setMem (splice w₂.mem source ContentSize Contents)).used
      (handle_zero V.handles (keyOf FileName, 0)) (.write source ContentSize (raw 2 4999))
    have hturns : FileSize / ContentSize = 4999 + 1 := by decide
    have hmoved : OpenFile.moved (0 : ℕ) ContentSize 0 = 0 := by decide
    simp only [Volume.call, FileArray.call, FileArray.writeAt, Function.update_self, hmoved,
      splice_zero, Function.update_idem] at hcall hs₃
    obtain ⟨w₄, hclose, hs₄⟩ := hs₃.closed fun h hh => by
      simp [hh, hV]
    rw [hopen, ok_bind]
    dsimp only
    rw [if_neg (by simp), hturns, World.writeLoop, hcall]
    dsimp only
    rw [if_pos (by decide), ok_bind]
    dsimp only
    rw [hclose]
    exact .inl ⟨haccepts, w₄, stale, _, rfl, hs₄⟩
  · rw [Nat.cast_zero] at hcreate
    rw [hcreate, ok_bind]
    exact .inr ⟨hnot, w₁, rfl, hs₁⟩

/-- `FileRead` does not find as many bytes as it wants. -/
theorem fileRead (hs : w.Shows V) (hV : V.handles = fun _ => none) (buffer : ℕ)
    (raw : ℕ → ℕ → Byte) :
    (keyOf FileName ∈ V.names ∧ ∃ w' mem, w.fileRead buffer raw = .ok ([.unableToRead], w') ∧
      w'.Shows { V with handles := fun _ => none, mem := mem }) ∨
      keyOf FileName ∉ V.names ∧ ∃ w', w.fileRead buffer raw = .ok ([.readOpen], w') ∧
        w'.Shows V := by
  unfold World.fileRead
  rcases hs.openedFile FileName raw with ⟨hmem, w₁, hopen, hs₁⟩ | ⟨hmem, w₁, hopen, hs₁⟩
  · have hlen := hs.length_le hmem
    have hmax : MaxFileSize < 0 + ContentSize * (FileSize / ContentSize) := by decide
    obtain ⟨w₂, mem, cursor, hread, hs₂⟩ := hs₁.readLoop
      (handle_zero V.handles (keyOf FileName, 0)) buffer (Nat.zero_le _) (hlen.trans_lt hmax)
    simp only [Function.update_idem] at hs₂
    obtain ⟨w₃, hclose, hs₃⟩ := hs₂.closed fun h hh => by
      simp [hh, hV]
    rw [hopen, ok_bind]
    dsimp only
    rw [if_neg (by simp), hread, ok_bind]
    dsimp only
    rw [hclose]
    exact .inl ⟨hmem, w₃, mem, rfl, hs₃⟩
  · rw [hopen, ok_bind]
    exact .inr ⟨hmem, w₁, rfl, hs₁⟩

end World.Shows

/-! ## Refinement -/

/-- The shelf has the files of the volume, and no file is open. -/
structure Volume.Fits (V : Volume) (s : Shelf) : Prop where
  names : V.names = s.names
  content : ∀ n ∈ s.names, (V.content n).list = s.content n
  closed : V.handles = fun _ => none

/-- The shelf has the files of the disk. -/
def World.Keeps (w : World) (s : Shelf) : Prop := ∃ V, w.Shows V ∧ V.Fits s

theorem Content.length_list (c : Content) : c.list.length = c.length := by simp [list]

theorem Content.list_splice (f : ℕ → Byte) (bytes : List Byte) :
    list ⟨bytes.length, splice f 0 bytes.length fun k => bytes.getD k 0⟩ = bytes := by
  refine List.ext_getElem (by simp [list]) fun k hk hk' => ?_
  simp [list, splice_front hk', hk']

theorem Volume.Fits.accepts_iff {V : Volume} {s : Shelf} (h : V.Fits s) (key : Key) (length : ℕ) :
    V.Accepts key length ↔ s.Accepts key length := by
  have hsectors : V.sectors = s.sectors := by
    rw [Volume.sectors, Shelf.sectors, h.names]
    refine Finset.sum_congr rfl fun n hn => ?_
    rw [← h.content n hn, Content.length_list]
  rw [Volume.Accepts, Shelf.Accepts, hsectors, h.names]

namespace World.Keeps

variable {w : World} {s : Shelf}

/-- What a command has to do. -/
def Obeys (w : World) (s : Shelf) (c : Invocation) : Prop :=
  ∃ w', w.command c = .ok ((s.command c.command).1, w') ∧ w'.Keeps (s.command c.command).2

theorem copy (hk : w.Keeps s) (buffer : ℕ) {bytes : List Byte} (hsize : bytes.length ≤ MaxFileSize)
    (name : ℕ → Byte) (raw : ℕ → ℕ → ℕ → Byte) :
    Obeys w s ⟨.copy (some bytes) name, buffer, raw⟩ := by
  obtain ⟨V, hs, hV⟩ := hk
  simp only [Obeys, World.command, World.copy, Shelf.command]
  rcases hs.created name hsize (raw 0) with
    ⟨haccepts, w₁, stale, hcreate, hs₁⟩ | ⟨hnot, w₁, hcreate, hs₁⟩
  · rw [if_pos ((hV.accepts_iff _ _).1 haccepts), hcreate, ok_bind]
    dsimp only
    rw [if_neg (by simp)]
    rcases hs₁.openedFile name (raw 1) with ⟨-, w₂, hopen, hs₂⟩ | ⟨hmem, -⟩
    swap
    · exact absurd (Finset.mem_insert_self _ _) hmem
    obtain ⟨w₃, mem, hcopy, hs₃⟩ := hs₂.copyLoop (handle_zero V.handles (keyOf name, 0)) buffer
      (raw 2) bytes (by simp only [Function.update_self, Nat.zero_add])
    simp only [Function.update_self, Function.update_idem] at hs₃
    obtain ⟨w₄, hclose, hs₄⟩ := hs₃.closed fun h hh => by
      simp [hh, hV.closed]
    rw [hopen, ok_bind]
    dsimp only
    rw [hcopy, ok_bind, hclose]
    refine ⟨w₄, rfl, _, hs₄, by rw [hV.names], fun n hn => ?_, rfl⟩
    dsimp only
    by_cases hname : n = keyOf name
    · subst hname
      rw [Function.update_self, Function.update_self]
      exact Content.list_splice stale bytes
    · rw [Function.update_of_ne hname, Function.update_of_ne hname]
      exact hV.content n (Finset.mem_of_mem_insert_of_ne hn hname)
  · rw [if_neg fun h => hnot ((hV.accepts_iff _ _).2 h), hcreate, ok_bind]
    exact ⟨w₁, rfl, V, hs₁, hV⟩

theorem print (hk : w.Keeps s) (buffer : ℕ) (name : ℕ → Byte) (raw : ℕ → ℕ → ℕ → Byte) :
    Obeys w s ⟨.print name, buffer, raw⟩ := by
  obtain ⟨V, hs, hV⟩ := hk
  simp only [Obeys, World.command, World.print, Shelf.command]
  rcases hs.openedFile name (raw 0) with ⟨hmem, w₁, hopen, hs₁⟩ | ⟨hmem, w₁, hopen, hs₁⟩
  · obtain ⟨w₂, mem, cursor, hprint, hs₂⟩ := hs₁.printLoop (handle_zero V.handles (keyOf name, 0))
      buffer
    simp only [Function.update_idem] at hs₂
    obtain ⟨w₃, hclose, hs₃⟩ := hs₂.closed fun h hh => by
      simp [hh, hV.closed]
    rw [hV.names] at hmem
    rw [if_pos hmem, hopen, ok_bind]
    dsimp only
    rw [if_neg (by simp), hprint, ok_bind]
    dsimp only
    rw [hclose, ← hV.content _ hmem]
    exact ⟨w₃, rfl, _, hs₃, hV.names, hV.content, rfl⟩
  · rw [hV.names] at hmem
    rw [if_neg hmem, hopen, ok_bind]
    exact ⟨w₁, rfl, V, hs₁, hV⟩

theorem remove (hk : w.Keeps s) (buffer : ℕ) (name : ℕ → Byte) (raw : ℕ → ℕ → ℕ → Byte) :
    Obeys w s ⟨.remove name, buffer, raw⟩ := by
  obtain ⟨V, hs, hV⟩ := hk
  simp only [Obeys, World.command, Shelf.command]
  rcases hs.removed name (raw 0) with ⟨hmem, w₁, hremove, hs₁⟩ | ⟨hmem, w₁, hremove, hs₁⟩
  · rw [hremove, ok_bind]
    refine ⟨w₁, rfl, _, hs₁, by rw [hV.names], fun n hn => ?_, ?_⟩
    · exact hV.content n (Finset.mem_of_mem_erase hn)
    · rw [hV.closed]
      rfl
  · rw [hremove, ok_bind]
    refine ⟨w₁, rfl, V, hs₁, ?_⟩
    rw [hV.names] at hmem
    simpa only [Finset.erase_eq_of_notMem hmem] using hV

theorem performanceTest (hk : w.Keeps s) (buffer : ℕ) (raw : ℕ → ℕ → ℕ → Byte) :
    Obeys w s ⟨.performanceTest, buffer, raw⟩ := by
  obtain ⟨V, hs, hV⟩ := hk
  simp only [Obeys, World.command, World.performanceTest, Shelf.command]
  rcases hs.fileWrite hV.closed buffer raw with
    ⟨haccepts, w₁, stale, mem, hwrite, hs₁⟩ | ⟨hnot, w₁, hwrite, hs₁⟩
  · have hmem : keyOf FileName ∉ s.names := hV.names ▸ haccepts.1
    rw [if_neg hmem, if_pos ((hV.accepts_iff _ _).1 haccepts), hwrite, ok_bind]
    dsimp only
    rcases hs₁.fileRead rfl buffer (raw 3) with ⟨-, w₂, mem, hread, hs₂⟩ | ⟨hmem', -⟩
    swap
    · exact absurd (Finset.mem_insert_self _ _) hmem'
    rcases hs₂.removed FileName (raw 4) with ⟨-, w₃, hremove, hs₃⟩ | ⟨hmem', -⟩
    swap
    · exact absurd (Finset.mem_insert_self _ _) hmem'
    rw [hread, ok_bind]
    dsimp only
    rw [hremove, ok_bind]
    refine ⟨w₃, rfl, _, hs₃, ?_, fun n hn => ?_, rfl⟩
    · rw [Finset.erase_insert haccepts.1, hV.names]
    · have hne : n ≠ keyOf FileName := fun heq => hmem (heq ▸ hn)
      dsimp only
      rw [Function.update_of_ne hne]
      exact hV.content n hn
  · rw [hwrite, ok_bind]
    dsimp only
    rcases hs₁.fileRead hV.closed buffer (raw 3) with
      ⟨hmem, w₂, mem, hread, hs₂⟩ | ⟨hmem, w₂, hread, hs₂⟩
    · rcases hs₂.removed FileName (raw 4) with ⟨-, w₃, hremove, hs₃⟩ | ⟨hmem', -⟩
      swap
      · exact absurd hmem hmem'
      rw [hV.names] at hmem
      rw [if_pos hmem, hread, ok_bind]
      dsimp only
      rw [hremove, ok_bind]
      refine ⟨w₃, rfl, _, hs₃, by rw [hV.names], fun n hn => ?_, rfl⟩
      exact hV.content n (Finset.mem_of_mem_erase hn)
    · rcases hs₂.removed FileName (raw 4) with ⟨hmem', -⟩ | ⟨-, w₃, hremove, hs₃⟩
      · exact absurd hmem' hmem
      rw [hV.names] at hmem
      rw [if_neg hmem, if_neg fun h => hnot ((hV.accepts_iff _ _).2 h), hread, ok_bind]
      dsimp only
      rw [hremove, ok_bind]
      exact ⟨w₃, rfl, V, hs₃, hV⟩

theorem restart (hk : w.Keeps s) (buffer : ℕ) (raw : ℕ → ℕ → ℕ → Byte) :
    Obeys w s ⟨.restart, buffer, raw⟩ := by
  obtain ⟨V, hs, hV⟩ := hk
  obtain ⟨answer, w', stale, hcall, rfl, hs'⟩ := hs.mount
  simp only [Obeys, World.command, Shelf.command]
  rw [hcall]
  exact ⟨w', rfl, _, hs', hV.names, hV.content, rfl⟩

theorem command (hk : w.Keeps s) (c : Invocation) (hsize : c.command.Sized) : Obeys w s c := by
  obtain ⟨command, buffer, raw⟩ := c
  cases command with
  | copy bytes name =>
      cases bytes with
      | none => exact ⟨w, rfl, hk⟩
      | some bytes => exact hk.copy buffer hsize name raw
  | print name => exact hk.print buffer name raw
  | remove name => exact hk.remove buffer name raw
  | performanceTest => exact hk.performanceTest buffer raw
  | restart => exact hk.restart buffer raw

theorem commands (hk : w.Keeps s) (cs : List Invocation) (hsize : ∀ c ∈ cs, c.command.Sized) :
    ∃ w', w.commands cs = .ok ((s.commands (cs.map Invocation.command)).1, w') ∧
      w'.Keeps (s.commands (cs.map Invocation.command)).2 := by
  induction cs generalizing w s with
  | nil => exact ⟨w, rfl, hk⟩
  | cons c cs ih =>
      rw [List.forall_mem_cons] at hsize
      obtain ⟨w₁, hcommand, hk₁⟩ := hk.command c hsize.1
      obtain ⟨w₂, hcommands, hk₂⟩ := ih hk₁ hsize.2
      refine ⟨w₂, ?_, hk₂⟩
      simp only [World.commands, hcommand, hcommands]
      rfl

end World.Keeps

/-- Whatever is on the disk before it is formatted and whatever a user types after that: the
commands print what they print on a shelf of byte strings, and leave on the disk what is on it. -/
theorem commands_keep_shelf (disk : Disk) (raw : ℕ → ℕ → Byte) (mem : ℕ → Byte) :
    ∃ fs, FileSystem.format disk raw = .ok fs ∧
      ∀ cs : List Invocation, (∀ c ∈ cs, c.command.Sized) → ∃ w,
        World.commands ⟨fs, fun _ => none, mem⟩ cs =
          .ok ((Shelf.empty.commands (cs.map Invocation.command)).1, w) ∧
        w.Keeps (Shelf.empty.commands (cs.map Invocation.command)).2 := by
  obtain ⟨fs, hformat, hshows⟩ := formatted disk raw mem
  refine ⟨fs, hformat, fun cs hsize => World.Keeps.commands ⟨_, hshows, rfl, ?_, rfl⟩ cs hsize⟩
  exact fun n hn => absurd hn (Finset.notMem_empty n)

/-- A file is copied, and again, shown by the next run of Nachos, and lost to the performance test
because of its name. -/
def evening : List Invocation :=
  [.copy (some [104, 105]) FileName, .copy (some []) FileName, .restart, .print FileName,
    .performanceTest, .print FileName, .performanceTest].map fun c => ⟨c, 0, fun _ _ _ => 7⟩

theorem evening_shelf : ∃ s, Shelf.empty.commands (evening.map Invocation.command) =
    ([.copyOutput, .contents [104, 105], .cannotCreate, .unableToRead, .printOpen, .unableToWrite,
      .unableToRead], s) ∧ s.names = ∅ := by
  refine ⟨(Shelf.empty.commands (evening.map Invocation.command)).2, Prod.ext ?_ rfl, ?_⟩
  · decide +kernel
  · decide +kernel

theorem commands_keep_shelf_evening :
    ∃ fs w s, FileSystem.format (fun _ => 7) (fun _ _ => 7) = .ok fs ∧
      World.commands ⟨fs, fun _ => none, fun _ => 7⟩ evening = .ok ([.copyOutput,
        .contents [104, 105], .cannotCreate, .unableToRead, .printOpen, .unableToWrite,
        .unableToRead], w) ∧ w.Keeps s ∧ s.names = ∅ := by
  obtain ⟨fs, hformat, hcommands⟩ :=
    commands_keep_shelf (fun _ => 7) (fun _ _ => 7) fun _ => 7
  have hsize : 2 ≤ MaxFileSize := by decide
  obtain ⟨w, hrun, hkeeps⟩ := hcommands evening (by
    simpa [evening, Command.Sized] using hsize)
  obtain ⟨s, hs, hnames⟩ := evening_shelf
  rw [hs] at hrun hkeeps
  exact ⟨fs, w, s, hformat, hrun, hkeeps, hnames⟩

end Filesys

end Nachos
