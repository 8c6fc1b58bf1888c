import Nachos.Network.InOrder
import Mathlib.Data.List.GetD

/-!
# The exchange of two messages

`MailTest` of `nettest.cc` on every machine of a network: the main thread sends a message to the
machine `farAddr`, waits for one, sends an acknowledgement to the box that this one names, and waits
for its own. Other threads do what they want as long as they do not call the post office. A message
may be dropped, and then the machine that waits for it waits forever; but when a machine prints
`Got it!`, the other one has printed its `Hello there!`.
-/

namespace Nachos

open Lib

namespace Network

namespace MailTest

def chars (cs : List Char) : List Byte := cs.map fun c => BitVec.ofNat 8 c.toNat

/-- `char *data`, without the NUL. -/
def data : List Byte := chars ['H', 'e', 'l', 'l', 'o', ' ', 't', 'h', 'e', 'r', 'e', '!']

/-- `char *ack`, without the NUL. -/
def ack : List Byte := chars ['G', 'o', 't', ' ', 'i', 't', '!']

/-- The cells of an array that holds the string. -/
def cells (bs : List Byte) (k : ℕ) : Byte := bs.getD k 0

/-- The string that begins at the array of `MaxMailSize` cells. -/
def cString (buffer : ℕ → Byte) : List Byte :=
  ((List.range MaxMailSize).map buffer).takeWhile fun b => b ≠ 0

/-- What `printf` prints: the string in `buffer`, `inPktHdr.from` and `inMailHdr.from`. -/
structure Line where
  text : List Byte
  fromMachine : BitVec 32
  fromBox : BitVec 32
  deriving DecidableEq

/-- The statement of `MailTest` that is next. -/
inductive Stage where
  | sendsData
  | receivesData
  | sendsAck
  | receivesAck
  | halts
  | halted
  deriving DecidableEq

/-- The main thread in `MailTest`, with what it has printed. -/
structure Main where
  stage : Stage
  outPktHdr : PacketHeader
  inPktHdr : PacketHeader
  outMailHdr : MailHeader
  inMailHdr : MailHeader
  buffer : ℕ → Byte
  printed : List Line

/-- The first assignments, to local variables that hold `raw`. -/
def Main.start (farAddr : BitVec 32) (raw : Main) : Main :=
  { raw with
    stage := .sendsData
    outPktHdr := { raw.outPktHdr with toMachine := farAddr }
    outMailHdr := ⟨0, 1, BitVec.ofNat 32 (data.length + 1)⟩
    printed := [] }

/-- The assignments before the second `Send`. -/
def Main.prepareAck (m : Main) : Main :=
  { m with
    outPktHdr := { m.outPktHdr with toMachine := m.inPktHdr.fromMachine }
    outMailHdr := { m.outMailHdr with
      toBox := m.inMailHdr.fromBox
      length := BitVec.ofNat 32 (ack.length + 1) } }

/-- `Receive` returns the mail, and it is printed. -/
def Main.receives (m : Main) (mail : Mail) : Main :=
  let buffer := splice m.buffer 0 mail.mailHdr.length.toNat mail.data
  { m with
    inPktHdr := mail.pktHdr
    inMailHdr := mail.mailHdr
    buffer := buffer
    printed := m.printed ++ [⟨cString buffer, mail.pktHdr.fromMachine, mail.mailHdr.fromBox⟩] }

/-- The main thread goes on to its next call; `none` is `Halt`. -/
def Main.next (m : Main) (raw : ℕ → Byte) : Option (Option Act × Main) :=
  match m.stage with
  | .sendsData => some (some (.send m.outPktHdr m.outMailHdr (cells data) raw),
      { m with stage := .receivesData })
  | .receivesData => some (some (.receive 0), { m with stage := .sendsAck })
  | .sendsAck => some (some (.send m.prepareAck.outPktHdr m.prepareAck.outMailHdr (cells ack) raw),
      { m.prepareAck with stage := .receivesAck })
  | .receivesAck => some (some (.receive 1), { m with stage := .halts })
  | .halts => some (none, { m with stage := .halted })
  | .halted => none

/-- What the current thread of a machine does, if the program lets it. -/
def choose (k : Kernel Pc Data) (m : Main) (a : Act) : Option (Option Act × Main) :=
  if k.stack k.currentThread ≠ [] then
    none
  else if k.currentThread = 0 then
    match k.pc 0, a with
    | .out, .turn _ raw => m.next raw
    | .getting _ mail, .turn _ raw => (m.receives mail).next raw
    | _, .turn dropped raw => some (some (.turn dropped raw), m)
    | _, _ => none
  else
    match a with
    | .send _ _ _ _ => none
    | .receive _ => none
    | a => some (some a, m)

end MailTest

open MailTest

/-- A network whose machines run `MailTest`. -/
structure Test (n : ℕ) where
  net : Net n
  main : Fin n → Main

namespace Test

variable {n : ℕ}

/-- The machines before `MailTest`: the machine `i` calls it with the address of `far i`. -/
def init (S : Sites n) (far : Fin n → Fin n) (boot : Fin n → Boot) (raw : Fin n → Main) :
    Test n where
  net := .init boot
  main i := .start (S.addr (far i)) (raw i)

/-- A step of the machine `i`; after `Halt` it makes none. -/
def step (S : Sites n) (x : Test n) (lab : Fin n × Label Act) : Except Stop (Test n) :=
  let i := lab.1
  let goOn (lab : Label Act) (m : Main) : Except Stop (Test n) :=
    match x.net.step S (i, lab) with
    | .error e => .error e
    | .ok net => .ok ⟨net, Function.update x.main i m⟩
  if (x.main i).stage = .halted then
    .error .disabled
  else
    match lab.2 with
    | .act a =>
        match choose (x.net.machine i) (x.main i) a with
        | none => .error .disabled
        | some (none, m) => .ok { x with main := Function.update x.main i m }
        | some (some a, m) => goOn (.act a) m
    | lab => goOn lab (x.main i)

end Test

namespace MailTest

/-! ## One machine -/

/-- The message that a machine sends first. -/
def dataLetter (me farAddr : BitVec 32) : Letter :=
  .of ⟨farAddr, me, BitVec.ofNat 32 (data.length + 1) + BitVec.ofNat 32 headerSize⟩
    ⟨0, 1, BitVec.ofNat 32 (data.length + 1)⟩ (cells data)

/-- The acknowledgement of a letter. -/
def ackLetter (me : BitVec 32) (l : Letter) : Letter :=
  .of ⟨l.pktHdr.fromMachine, me, BitVec.ofNat 32 (ack.length + 1) + BitVec.ofNat 32 headerSize⟩
    ⟨l.mailHdr.fromBox, 1, BitVec.ofNat 32 (ack.length + 1)⟩ (cells ack)

/-- The line is printed when the letter has been received. -/
def Shows (l : Letter) (line : Line) : Prop :=
  ∃ buffer, l = .of l.pktHdr l.mailHdr buffer ∧
    line = ⟨cString buffer, l.pktHdr.fromMachine, l.mailHdr.fromBox⟩

/-- The thread is in `Send` or `Receive`. -/
def busy : Pc → Bool
  | .sending _ _ _ _ => true
  | .sendDone => true
  | .removing _ => true
  | .getting _ _ => true
  | _ => false

/-- The thread is in `Send` after the call of `Acquire`, or behind it. -/
def hasSent : Pc → Bool
  | .sending _ _ _ _ => true
  | .sendDone => true
  | .out => true
  | _ => false

/-- What the main thread has printed, where it is in the post office, and what it has passed to
`Send` and taken from its boxes, before each of its statements. -/
inductive Stands (me farAddr : BitVec 32) :
    Stage → List Line → Pc → List (Tid × Letter) → List (Tid × ℕ × Letter) → Prop
  | sendsData {pc : Pc} (hpc : pc = .boot ∨ pc = .out) :
      Stands me farAddr .sendsData [] pc [] []
  | receivesData {pc : Pc} (hpc : hasSent pc = true) :
      Stands me farAddr .receivesData [] pc [(0, dataLetter me farAddr)] []
  | sendsAck : Stands me farAddr .sendsAck [] (.removing 0) [(0, dataLetter me farAddr)] []
  | gotData (mail : Mail) :
      Stands me farAddr .sendsAck [] (.getting 0 mail) [(0, dataLetter me farAddr)]
        [(0, 0, mail.letter)]
  | receivesAck {pc : Pc} {l : Letter} {line : Line} (hshows : Shows l line)
      (hpc : hasSent pc = true) :
      Stands me farAddr .receivesAck [line] pc
        [(0, dataLetter me farAddr), (0, ackLetter me l)] [(0, 0, l)]
  | halts {l : Letter} {line : Line} (hshows : Shows l line) :
      Stands me farAddr .halts [line] (.removing 1)
        [(0, dataLetter me farAddr), (0, ackLetter me l)] [(0, 0, l)]
  | gotAck {l : Letter} {line : Line} (hshows : Shows l line) (mail : Mail) :
      Stands me farAddr .halts [line] (.getting 1 mail)
        [(0, dataLetter me farAddr), (0, ackLetter me l)] [(0, 0, l), (0, 1, mail.letter)]
  | halted {pc : Pc} {l l' : Letter} {line line' : Line} (hshows : Shows l line)
      (hshows' : Shows l' line') :
      Stands me farAddr .halted [line, line'] pc
        [(0, dataLetter me farAddr), (0, ackLetter me l)] [(0, 0, l), (0, 1, l')]

/-- What is true of a machine in every state. -/
structure Follows (me farAddr : BitVec 32) (m : Main) (k : Kernel Pc Data) : Prop where
  fromBox : m.outMailHdr.fromBox = 1
  ready : m.stage = .sendsData → m.outPktHdr.toMachine = farAddr ∧
    m.outMailHdr = ⟨0, 1, BitVec.ofNat 32 (data.length + 1)⟩
  stands : Stands me farAddr m.stage m.printed (k.pc 0) k.data.passed k.data.removed
  others : ∀ t, t ≠ 0 → busy (k.pc t) = false

section

variable {site : Site} {t : Tid} {pc pc' : Pc} {d d' : Data} {a a' : Act} {o : Call Pc}
  {me farAddr : BitVec 32} {m m' : Main} {k k' : Kernel Pc Data} {st : Stage} {lines : List Line}

theorem shows_receives (m : Main) (mail : Mail) :
    ∃ line, (m.receives mail).printed = m.printed ++ [line] ∧ Shows mail.letter line := by
  refine ⟨_, rfl, splice m.buffer 0 mail.mailHdr.length.toNat mail.data, ?_, rfl⟩
  exact Letter.of_congr fun k hk => (splice_front hk).symm

theorem stack_of_choose {r : Option Act × Main} (h : choose k m a = some r) :
    k.stack k.currentThread = [] := by
  unfold choose at h
  split at h
  · cases h
  · exact not_not.1 ‹_›

theorem choose_out (hcur : k.currentThread = 0) (hpc : k.pc 0 = .out) {r : Option Act × Main}
    (h : choose k m a = some r) : ∃ raw, m.next raw = some r := by
  unfold choose at h
  split at h
  · cases h
  · rw [hpc] at h
    cases a with
    | turn dropped raw => exact ⟨raw, h⟩
    | _ => cases h

theorem choose_getting {box : ℕ} {mail : Mail} (hcur : k.currentThread = 0)
    (hpc : k.pc 0 = .getting box mail) {r : Option Act × Main} (h : choose k m a = some r) :
    ∃ raw, (m.receives mail).next raw = some r := by
  unfold choose at h
  split at h
  · cases h
  · rw [hpc] at h
    cases a with
    | turn dropped raw => exact ⟨raw, h⟩
    | _ => cases h

theorem choose_inside (hcur : k.currentThread = 0) (hout : k.pc 0 ≠ .out)
    (hgetting : ∀ box mail, k.pc 0 ≠ .getting box mail) {r : Option Act × Main}
    (h : choose k m a = some r) : r = (some a, m) ∧ ∃ dropped raw, a = .turn dropped raw := by
  unfold choose at h
  split at h
  · cases h
  · split at h
    · exact absurd ‹_› hout
    · exact absurd ‹_› (hgetting _ _)
    · cases h
      exact ⟨rfl, _, _, rfl⟩
    · cases h

theorem choose_other (hcur : k.currentThread ≠ 0) {r : Option Act × Main}
    (h : choose k m a = some r) : r = (some a, m) ∧ (∀ pktHdr mailHdr data raw,
      a ≠ .send pktHdr mailHdr data raw) ∧ ∀ box, a ≠ .receive box := by
  unfold choose at h
  split at h
  · cases h
  · cases a with
    | send => cases h
    | receive => cases h
    | _ =>
        cases h
        exact ⟨rfl, by simp, by simp⟩

theorem outside_send {pktHdr : PacketHeader} {mailHdr : MailHeader} {data raw : ℕ → Byte}
    (h : d.outside site t (.send pktHdr mailHdr data raw) = .ok (o, pc', d')) :
    hasSent pc' = true ∧ d'.removed = d.removed ∧ d'.passed = d.passed ++
      [(t, .of ⟨pktHdr.toMachine, site.netAddr, mailHdr.length + BitVec.ofNat 32 headerSize⟩
        mailHdr data)] := by
  simp only [Data.outside, Data.send, check_ok, Except.ok.injEq, Prod.mk.injEq] at h
  obtain ⟨-, -, rfl, rfl, rfl⟩ := h
  exact ⟨rfl, rfl, rfl⟩

theorem outside_receive {box : ℤ} (h : d.outside site t (.receive box) = .ok (o, pc', d')) :
    pc' = .removing box.toNat ∧ d' = d := by
  simp only [Data.outside, Data.receive, check_ok, Except.ok.injEq, Prod.mk.injEq] at h
  obtain ⟨-, rfl, rfl, rfl⟩ := h
  exact ⟨rfl, rfl⟩

theorem code_getting {box : ℕ} {mail : Mail}
    (h : code site t (.getting box mail) d a = .ok (o, pc', d')) :
    Data.outside { d with handed := d.handed ++ [(t, box, mail.letter)] } site t a =
      .ok (o, pc', d') := by
  simp only [code, check_ok] at h
  exact h.2

/-- The main thread goes on in `Send` or `Receive`. -/
theorem Stands.inside {P : List (Tid × Letter)} {R : List (Tid × ℕ × Letter)}
    (h : Stands me farAddr st lines pc P R) (hP : d.passed = P) (hR : d.removed = R)
    (hout : pc ≠ .out) (hgetting : ∀ box mail, pc ≠ .getting box mail) (hhalted : st ≠ .halted)
    (hmove : Moves site 0 pc d o pc' d') : Stands me farAddr st lines pc' d'.passed d'.removed := by
  subst hP hR
  generalize hP : d.passed = P at h
  generalize hR : d.removed = R at h
  cases h with
  | sendsData hpc =>
      obtain rfl : pc = .boot := hpc.resolve_right hout
      cases hmove
      rw [hP, hR]
      exact .sendsData (.inr rfl)
  | receivesData hpc =>
      cases hmove with
      | posts _ pktHdr mailHdr data buffer sendInts wire hwire =>
          simp only [hP, hR]
          exact .receivesData rfl
      | sendDone =>
          rw [hP, hR]
          exact .receivesData rfl
      | out => exact absurd rfl hout
      | _ => cases hpc
  | sendsAck =>
      cases hmove with
      | waits =>
          rw [hP, hR]
          exact .sendsAck
      | removes _ _ mail mails hbox =>
          simp only [hP, hR, List.nil_append]
          exact .gotData mail
  | gotData mail => exact absurd rfl (hgetting 0 mail)
  | receivesAck hshows hpc =>
      cases hmove with
      | posts _ pktHdr mailHdr data buffer sendInts wire hwire =>
          simp only [hP, hR]
          exact .receivesAck hshows rfl
      | sendDone =>
          rw [hP, hR]
          exact .receivesAck hshows rfl
      | out => exact absurd rfl hout
      | _ => cases hpc
  | halts hshows =>
      cases hmove with
      | waits =>
          rw [hP, hR]
          exact .halts hshows
      | removes _ _ mail mails hbox =>
          simp only [hP, hR, List.cons_append, List.nil_append]
          exact .gotAck hshows mail
  | gotAck hshows mail => exact absurd rfl (hgetting 1 mail)
  | halted => exact absurd rfl hhalted

theorem Main.next_ready {raw : ℕ → Byte} {r : Option Act} (h : m.next raw = some (r, m'))
    (hfrom : m.outMailHdr.fromBox = 1) :
    m'.outMailHdr.fromBox = 1 ∧ m'.stage ≠ .sendsData := by
  unfold Main.next at h
  split at h <;> cases h <;> exact ⟨hfrom, by simp⟩

theorem Main.next_none {raw : ℕ → Byte} (h : m.next raw = some (none, m')) :
    m.stage = .halts ∧ m' = { m with stage := .halted } := by
  unfold Main.next at h
  split at h <;> cases h
  rename_i hstage
  exact ⟨hstage, rfl⟩

/-- The main thread makes its next call after `Send`, or its first one. -/
theorem Stands.next {P : List (Tid × Letter)} {R : List (Tid × ℕ × Letter)} {raw : ℕ → Byte}
    (h : Stands site.netAddr farAddr m.stage m.printed .out P R) (hP : d.passed = P)
    (hR : d.removed = R) (hready : m.stage = .sendsData → m.outPktHdr.toMachine = farAddr ∧
      m.outMailHdr = ⟨0, 1, BitVec.ofNat 32 (data.length + 1)⟩)
    (hnext : m.next raw = some (some a, m')) (hcode : d.outside site 0 a = .ok (o, pc', d')) :
    Stands site.netAddr farAddr m'.stage m'.printed pc' d'.passed d'.removed := by
  generalize hstage : m.stage = st at h
  generalize hprinted : m.printed = lines at h
  cases h with
  | sendsData hpc =>
      obtain ⟨hfar, hmail⟩ := hready hstage
      simp only [Main.next, hstage, Option.some.injEq, Prod.mk.injEq] at hnext
      obtain ⟨rfl, rfl⟩ := hnext
      obtain ⟨hpc', hremoved, hpassed⟩ := outside_send hcode
      rw [hremoved, hpassed, hP, hR, hprinted, hfar, hmail]
      exact .receivesData hpc'
  | receivesData hpc =>
      simp only [Main.next, hstage, Option.some.injEq, Prod.mk.injEq] at hnext
      obtain ⟨rfl, rfl⟩ := hnext
      obtain ⟨rfl, rfl⟩ := outside_receive hcode
      rw [hP, hR, hprinted]
      exact .sendsAck
  | receivesAck hshows hpc =>
      simp only [Main.next, hstage, Option.some.injEq, Prod.mk.injEq] at hnext
      obtain ⟨rfl, rfl⟩ := hnext
      obtain ⟨rfl, rfl⟩ := outside_receive hcode
      rw [hP, hR, hprinted]
      exact .halts hshows
  | halted =>
      simp only [Main.next, hstage] at hnext
      cases hnext

/-- `Receive` returns to the main thread, which acknowledges the message. -/
theorem Stands.acknowledge {P : List (Tid × Letter)} {R : List (Tid × ℕ × Letter)}
    {raw : ℕ → Byte} {box : ℕ} {mail : Mail}
    (h : Stands site.netAddr farAddr m.stage m.printed (.getting box mail) P R)
    (hP : d.passed = P) (hR : d.removed = R) (hfrom : m.outMailHdr.fromBox = 1)
    (hnext : (m.receives mail).next raw = some (some a, m'))
    (hcode : d.outside site 0 a = .ok (o, pc', d')) :
    Stands site.netAddr farAddr m'.stage m'.printed pc' d'.passed d'.removed := by
  obtain ⟨line, hline, hshows⟩ := shows_receives m mail
  generalize hstage : m.stage = st at h
  generalize hprinted : m.printed = lines at h hline
  have hstage' : (m.receives mail).stage = st := hstage
  cases h with
  | sendsData hpc => rcases hpc with hpc | hpc <;> cases hpc
  | receivesData hpc => cases hpc
  | receivesAck hshows' hpc => cases hpc
  | gotData =>
      simp only [Main.next, hstage', Option.some.injEq, Prod.mk.injEq] at hnext
      obtain ⟨rfl, rfl⟩ := hnext
      obtain ⟨hpc', hremoved, hpassed⟩ := outside_send hcode
      have hprinted' : (m.receives mail).prepareAck.printed = [line] := hline
      have hmail : (m.receives mail).prepareAck.outMailHdr =
          ⟨mail.mailHdr.fromBox, 1, BitVec.ofNat 32 (ack.length + 1)⟩ := by
        rw [← hfrom]
        rfl
      rw [hremoved, hpassed, hP, hR, hprinted', hmail]
      exact .receivesAck hshows hpc'
  | gotAck =>
      simp only [Main.next, hstage'] at hnext
      cases hnext
  | halted =>
      simp only [Main.next, hstage'] at hnext
      cases hnext

/-- `Receive` returns to the main thread for the second time, and it halts. -/
theorem Stands.halt {P : List (Tid × Letter)} {R : List (Tid × ℕ × Letter)}
    {raw : ℕ → Byte} {box : ℕ} {mail : Mail}
    (h : Stands me farAddr m.stage m.printed (.getting box mail) P R)
    (hnext : (m.receives mail).next raw = some (none, m')) :
    Stands me farAddr m'.stage m'.printed (.getting box mail) P R := by
  obtain ⟨line, hline, hshows⟩ := shows_receives m mail
  obtain ⟨hstage, rfl⟩ := Main.next_none hnext
  have hstage' : m.stage = .halts := hstage
  generalize hprinted : m.printed = lines at h hline
  rw [hstage'] at h
  simp only [hline]
  cases h with
  | gotAck hshows' => exact .halted hshows' hshows

/-- A thread that does not call the post office. -/
theorem code_other (hpc : busy pc = false)
    (hsend : ∀ pktHdr mailHdr data raw, a ≠ .send pktHdr mailHdr data raw)
    (hreceive : ∀ box, a ≠ .receive box) (h : code site t pc d a = .ok (o, pc', d')) :
    busy pc' = false ∧ d'.passed = d.passed ∧ d'.removed = d.removed := by
  have hmove := code_moves h
  cases hmove with
  | out _ hout =>
      cases a with
      | send pktHdr mailHdr data raw => exact absurd rfl (hsend pktHdr mailHdr data raw)
      | receive box => exact absurd rfl (hreceive box)
      | other o' =>
          simp only [code, Data.outside] at h
          split at h <;> cases h
          exact ⟨rfl, rfl, rfl⟩
      | _ => cases h
  | posts => cases hpc
  | sendDone => cases hpc
  | waits => cases hpc
  | removes => cases hpc
  | hands => cases hpc
  | _ => exact ⟨rfl, rfl, rfl⟩

theorem interrupt_passed {sems : List ℕ} (h : interrupt site d a = .ok (sems, d')) :
    d'.passed = d.passed ∧ d'.removed = d.removed := by
  cases a with
  | checkPktAvail datagram =>
      simp only [interrupt, Data.checkPktAvail] at h
      split at h
      · cases h
        exact ⟨rfl, rfl⟩
      · cases datagram with
        | none =>
            cases h
            exact ⟨rfl, rfl⟩
        | some packet =>
            simp only [check_ok] at h
            obtain ⟨-, h⟩ := h
            cases h
            exact ⟨rfl, rfl⟩
  | sendDone =>
      simp only [interrupt, Data.sendDone] at h
      split at h <;> cases h
      exact ⟨rfl, rfl⟩
  | handle sems' =>
      simp only [interrupt] at h
      split at h <;> cases h
      exact ⟨rfl, rfl⟩
  | _ => cases h

/-- What the current thread has chosen is what the program says. -/
theorem Follows.code (h : Follows site.netAddr farAddr m k) (hhalted : m.stage ≠ .halted)
    (hchoose : choose k m a = some (some a', m'))
    (hcode : code site k.currentThread (k.pc k.currentThread) k.data a' = .ok (o, pc', d')) :
    m'.outMailHdr.fromBox = 1 ∧ (m'.stage = .sendsData → m'.outPktHdr.toMachine = farAddr ∧
      m'.outMailHdr = ⟨0, 1, BitVec.ofNat 32 (data.length + 1)⟩) ∧
        (k.currentThread ≠ 0 → busy pc' = false) ∧
          Stands site.netAddr farAddr m'.stage m'.printed
            (if k.currentThread = 0 then pc' else k.pc 0) d'.passed d'.removed := by
  by_cases hcur : k.currentThread = 0
  · rw [hcur] at hcode
    rw [if_pos hcur]
    have hstands := h.stands
    by_cases hout : k.pc 0 = .out
    · obtain ⟨raw, hnext⟩ := choose_out hcur hout hchoose
      rw [hout] at hstands hcode
      obtain ⟨hfrom, hne⟩ := Main.next_ready hnext h.fromBox
      exact ⟨hfrom, fun heq => absurd heq hne, fun hne => absurd hcur hne,
        hstands.next rfl rfl h.ready hnext hcode⟩
    · by_cases hgetting : ∃ box mail, k.pc 0 = .getting box mail
      · obtain ⟨box, mail, hpc⟩ := hgetting
        obtain ⟨raw, hnext⟩ := choose_getting hcur hpc hchoose
        rw [hpc] at hstands hcode
        obtain ⟨hfrom, hne⟩ := Main.next_ready hnext h.fromBox
        exact ⟨hfrom, fun heq => absurd heq hne, fun hne => absurd hcur hne,
          Stands.acknowledge hstands (d := { k.data with
            handed := k.data.handed ++ [(0, box, mail.letter)] }) rfl rfl h.fromBox hnext
              (code_getting hcode)⟩
      · have hgetting' : ∀ box mail, k.pc 0 ≠ .getting box mail :=
          fun box mail heq => hgetting ⟨box, mail, heq⟩
        cases (choose_inside hcur hout hgetting' hchoose).1
        exact ⟨h.fromBox, h.ready, fun hne => absurd hcur hne,
          hstands.inside rfl rfl hout hgetting' hhalted (code_moves hcode)⟩
  · obtain ⟨heq, hsend, hreceive⟩ := choose_other hcur hchoose
    cases heq
    obtain ⟨hbusy, hpassed, hremoved⟩ := code_other (h.others _ hcur) hsend hreceive hcode
    rw [if_neg hcur, hpassed, hremoved]
    exact ⟨h.fromBox, h.ready, fun _ => hbusy, h.stands⟩

variable {boot : Data} {initialValue : ℕ → ℤ}

/-- The current thread makes its next call. -/
theorem Follows.own (h : Follows site.netAddr farAddr m k)
    (hr : Kernel.Runs (client site) .boot boot initialValue k)
    (hfresh : ∀ t, k'.numThreads ≤ t → k'.pc t = .boot) (hhalted : m.stage ≠ .halted)
    (hchoose : choose k m a = some (some a', m'))
    (hs : Kernel.step (client site) k (.act a') = .ok k') :
    Follows site.netAddr farAddr m' k' := by
  have hcur := hr.placed.current_lt
  rcases Kernel.step_advances hcur hr.inner hs with
    ⟨b, o, pc, heq, -, hnext, -, -, hadv⟩ | ⟨b, sems, heq, -⟩ | ⟨hstack, -⟩
  · cases heq
    have hcode := ok_of_toOption hnext
    obtain ⟨hfrom, hready, hbusy, hstands⟩ := h.code hhalted hchoose hcode
    refine ⟨hfrom, hready, ?_, fun t ht => ?_⟩
    · have hpc : k'.pc 0 = if k.currentThread = 0 then pc else k.pc 0 := by
        split
        · rename_i hzero
          rw [← hzero]
          exact hadv.self
        · rename_i hzero
          exact hadv.others 0 (Ne.symm hzero) ((Nat.zero_le _).trans_lt hcur)
      rw [hpc]
      exact hstands
    · by_cases hlt : t < k'.numThreads
      · rcases hadv.pc_cases hlt with ⟨rfl, hpc⟩ | ⟨-, -, hpc⟩ | ⟨-, join, start, rfl, hpc⟩
        · rw [hpc]
          exact hbusy ht
        · rw [hpc]
          exact h.others t ht
        · rw [hpc]
          rcases (code_moves hcode).fork with rfl | ⟨rfl, -⟩ <;> rfl
      · rw [hfresh t (not_lt.1 hlt)]
        rfl
  · cases heq
  · unfold Kernel.step at hs
    unfold choose at hchoose
    simp [hstack] at hchoose

/-- A step in which no thread makes a call of its own. -/
theorem Follows.other {lab : Label Act} (h : Follows me farAddr m k)
    (hr : Kernel.Runs (client site) .boot boot initialValue k) (hlab : ∀ a, lab ≠ .act a)
    (hs : Kernel.step (client site) k lab = .ok k') : Follows me farAddr m k' := by
  rcases Kernel.step_advances hr.placed.current_lt hr.inner hs with
    ⟨b, o, pc, heq, -⟩ | ⟨b, sems, -, hhandler, -, hq⟩ | ⟨-, hq⟩
  · exact absurd heq (hlab b)
  · obtain ⟨hpassed, hremoved⟩ := interrupt_passed (ok_of_toOption hhandler)
    have hpc : k'.pc = k.pc := hq.pc
    refine ⟨h.fromBox, h.ready, ?_, fun t ht => ?_⟩
    · rw [hpc, hpassed, hremoved]
      exact h.stands
    · rw [hpc]
      exact h.others t ht
  · refine ⟨h.fromBox, h.ready, ?_, fun t ht => ?_⟩
    · rw [hq.pc, hq.data]
      exact h.stands
    · rw [hq.pc]
      exact h.others t ht

/-- The main thread halts. -/
theorem Follows.halt (h : Follows me farAddr m k) (hchoose : choose k m a = some (none, m')) :
    Follows me farAddr m' k := by
  by_cases hcur : k.currentThread = 0
  · have hstands := h.stands
    by_cases hout : k.pc 0 = .out
    · obtain ⟨raw, hnext⟩ := choose_out hcur hout hchoose
      rw [hout, (Main.next_none hnext).1] at hstands
      generalize m.printed = lines at hstands
      cases hstands
    · by_cases hgetting : ∃ box mail, k.pc 0 = .getting box mail
      · obtain ⟨box, mail, hpc⟩ := hgetting
        obtain ⟨raw, hnext⟩ := choose_getting hcur hpc hchoose
        obtain ⟨hfrom, hne⟩ := Main.next_ready hnext h.fromBox
        refine ⟨hfrom, fun heq => absurd heq hne, ?_, h.others⟩
        rw [hpc] at hstands ⊢
        exact hstands.halt hnext
      · cases (choose_inside hcur hout (fun box mail heq => hgetting ⟨box, mail, heq⟩) hchoose).1
  · cases (choose_other hcur hchoose).1

variable {P : List (Tid × Letter)} {R : List (Tid × ℕ × Letter)}

theorem Stands.of_out (h : Stands me farAddr st lines .out P R) : st ≠ .sendsAck := by
  generalize hpc : Pc.out = pc at h
  cases h <;> simp at hpc ⊢

theorem Stands.of_getting {box : ℕ} {mail : Mail}
    (h : Stands me farAddr st lines (.getting box mail) P R) :
    st ≠ .sendsData ∧ (st = .sendsAck → (0, 0, mail.letter) ∈ R) := by
  generalize hpc : Pc.getting box mail = pc at h
  cases h with
  | sendsData hpc' =>
      subst hpc
      rcases hpc' with hpc' | hpc' <;> cases hpc'
  | _ => simp_all

theorem eq_of_mem_pair {l l₁ l₂ : Letter} (h : (t, l) ∈ [(0, l₁), (0, l₂)]) :
    l = l₁ ∨ l = l₂ := by
  simp only [List.mem_cons, Prod.mk.injEq, List.not_mem_nil, or_false] at h
  exact h.imp And.right And.right

/-- A machine has passed its message to `Send`, and the acknowledgement of the letter whose line it
has printed. -/
theorem Stands.passed (h : Stands me farAddr st lines pc P R) {l : Letter} (hl : (t, l) ∈ P) :
    l = dataLetter me farAddr ∨ ∃ l' line rest, l = ackLetter me l' ∧ (0, 0, l') ∈ R ∧
      lines = line :: rest ∧ Shows l' line := by
  cases h with
  | sendsData => cases hl
  | receivesAck hshows =>
      exact (eq_of_mem_pair hl).imp_right fun heq => ⟨_, _, _, heq, by simp, rfl, hshows⟩
  | halts hshows =>
      exact (eq_of_mem_pair hl).imp_right fun heq => ⟨_, _, _, heq, by simp, rfl, hshows⟩
  | gotAck hshows =>
      exact (eq_of_mem_pair hl).imp_right fun heq => ⟨_, _, _, heq, by simp, rfl, hshows⟩
  | halted hshows =>
      exact (eq_of_mem_pair hl).imp_right fun heq => ⟨_, _, _, heq, by simp, rfl, hshows⟩
  | _ => exact .inl (Prod.mk.inj (List.mem_singleton.1 hl)).2

/-- A machine has printed the lines of the letters that it has received. -/
theorem Stands.printed (h : Stands me farAddr st lines pc P R) :
    (lines = [] ∧ st ≠ .halted) ∨
      (∃ l line, lines = [line] ∧ Shows l line ∧ (0, 0, l) ∈ R ∧ st ≠ .halted) ∨
        ∃ l l' line line', lines = [line, line'] ∧ Shows l line ∧ Shows l' line' ∧
          (0, 0, l) ∈ R ∧ (0, 1, l') ∈ R := by
  cases h with
  | receivesAck hshows => exact .inr (.inl ⟨_, _, rfl, hshows, by simp, by simp⟩)
  | halts hshows => exact .inr (.inl ⟨_, _, rfl, hshows, by simp, by simp⟩)
  | gotAck hshows => exact .inr (.inl ⟨_, _, rfl, hshows, by simp, by simp⟩)
  | halted hshows hshows' => exact .inr (.inr ⟨_, _, _, _, rfl, hshows, hshows', by simp, by simp⟩)
  | _ => exact .inl ⟨rfl, by simp⟩

end

/-! ## What is printed -/

theorem cString_eq {bs : List Byte} {buffer : ℕ → Byte} (hlength : bs.length < MaxMailSize)
    (hbs : ∀ b ∈ bs, b ≠ 0) (h : ∀ k ≤ bs.length, buffer k = cells bs k) : cString buffer = bs := by
  obtain ⟨rest, hrest⟩ := Nat.exists_eq_add_of_lt hlength
  have hbytes : (List.range bs.length).map buffer = bs := by
    refine List.ext_getElem (by simp) fun k hk hk' => ?_
    rw [List.getElem_map, List.getElem_range, h k hk'.le, cells, List.getD_eq_getElem _ _ hk']
  have hnul : buffer bs.length = 0 := by
    rw [h _ le_rfl, cells, List.getD_eq_default _ _ le_rfl]
  have hsplit : (List.range MaxMailSize).map buffer = bs ++ 0 ::
      (List.range rest).map fun k => buffer (bs.length + 1 + k) := by
    rw [hrest, show bs.length + rest + 1 = bs.length + (1 + rest) by omega, List.range_add,
      List.map_append, hbytes, List.range_add]
    simp [hnul, Nat.add_assoc]
  rw [cString, hsplit, List.takeWhile_append_of_pos (by simpa using hbs)]
  simp

theorem Shows.line_eq {l : Letter} {line : Line} {bs : List Byte} (h : Shows l line)
    (hl : l.data = (List.range (bs.length + 1)).map (cells bs))
    (hlength : l.mailHdr.length.toNat = bs.length + 1) (hmax : bs.length < MaxMailSize)
    (hbs : ∀ b ∈ bs, b ≠ 0) : line = ⟨bs, l.pktHdr.fromMachine, l.mailHdr.fromBox⟩ := by
  obtain ⟨buffer, heq, rfl⟩ := h
  have hdata : (List.range (bs.length + 1)).map buffer =
      (List.range (bs.length + 1)).map (cells bs) := by
    rw [← hl, ← hlength]
    exact (congrArg Letter.data heq).symm
  rw [cString_eq hmax hbs fun k hk => ?_]
  exact List.map_inj_left.1 hdata k (List.mem_range.2 (Nat.lt_succ_of_le hk))

theorem shows_dataLetter {me farAddr : BitVec 32} {line : Line}
    (h : Shows (dataLetter me farAddr) line) : line = ⟨data, me, 1⟩ :=
  h.line_eq rfl rfl (by decide) (by decide)

theorem shows_ackLetter {me : BitVec 32} {l : Letter} {line : Line}
    (h : Shows (ackLetter me l) line) : line = ⟨ack, me, 1⟩ :=
  h.line_eq rfl rfl (by decide) (by decide)

/-! ## The network -/

variable {n : ℕ} {S : Sites n} {far : Fin n → Fin n} {boot : Fin n → Boot} {raw : Fin n → Main}
  {x x' : Test n} {i j : Fin n}

/-- What is true of the network in every state. -/
structure Tested (S : Sites n) (far : Fin n → Fin n) (boot : Fin n → Boot) (x : Test n) : Prop where
  reached : Reachable (Net.step S) (Net.init boot) x.net
  follows : ∀ i, Follows (S.addr i) (S.addr (far i)) (x.main i) (x.net.machine i)

theorem Tested.init (S : Sites n) (far : Fin n → Fin n) (boot : Fin n → Boot)
    (raw : Fin n → Main) : Tested S far boot (.init S far boot raw) where
  reached := .refl _ _
  follows _ := ⟨rfl, fun _ => ⟨rfl, rfl⟩, .sendsData (.inl rfl), fun _ _ => rfl⟩

/-- A step of the network in which the main thread of the machine `i` goes on to `m`. -/
theorem Tested.goes {net : Net n} {lab : Label Act} {m : Main} (h : Tested S far boot x)
    (hs : x.net.step S (i, lab) = .ok net)
    (hi : ∀ k, Kernel.step (client (S.site i)) (x.net.machine i) (x.net.polls i lab) = .ok k →
      (∀ t, k.numThreads ≤ t → k.pc t = .boot) →
        Follows (S.addr i) (S.addr (far i)) m k) :
    Tested S far boot ⟨net, Function.update x.main i m⟩ := by
  have hreached := h.reached.tail hs
  refine ⟨hreached, fun j => ?_⟩
  obtain ⟨k, hk, hmachine, -⟩ := step_arrived (Linked.of_reachable h.reached).runs hs
  by_cases hj : j = i
  · subst hj
    have hsound := (Linked.of_reachable hreached).sound j
    simp only [hmachine, Function.update_self] at hsound ⊢
    exact hi k hk hsound.fresh
  · simp only [hmachine, Function.update_of_ne hj]
    exact h.follows j

theorem Tested.step {lab : Fin n × Label Act} (h : Tested S far boot x)
    (hs : x.step S lab = .ok x') : Tested S far boot x' := by
  obtain ⟨i, lab⟩ := lab
  have hruns := (Linked.of_reachable h.reached).runs i
  simp only [Test.step] at hs
  split at hs
  · cases hs
  rename_i hhalted
  split at hs
  · rename_i a
    split at hs
    · cases hs
    · rename_i m hchoose
      cases hs
      refine ⟨h.reached, fun j => ?_⟩
      by_cases hj : j = i
      · subst hj
        simp only [Function.update_self]
        exact (h.follows j).halt hchoose
      · simp only [Function.update_of_ne hj]
        exact h.follows j
    · rename_i a' m hchoose
      split at hs
      · cases hs
      · rename_i net hnet
        cases hs
        exact h.goes hnet fun k hk hfresh => (h.follows i).own hruns hfresh hhalted hchoose hk
  · rename_i hlab
    split at hs
    · cases hs
    · rename_i net hnet
      cases hs
      refine h.goes hnet fun k hk hfresh => (h.follows i).other hruns (fun a heq => ?_) hk
      cases lab with
      | act a => exact hlab a rfl
      | interrupt a => cases a <;> cases heq
      | _ => cases heq

theorem Tested.of_reachable (h : Reachable (Test.step S) (Test.init S far boot raw) x) :
    Tested S far boot x :=
  Reachable.invariant (I := Tested S far boot) (.init S far boot raw)
    (fun _ _ _ _ hi hs => hi.step hs) h

/-- What a machine has taken from a box has been passed to `Send` in one of them. -/
theorem Tested.taken (h : Tested S far boot x) {t : Tid} {b : ℕ} {l : Letter}
    (hl : (t, b, l) ∈ (x.net.machine i).data.removed) : ∃ j, S.isFrom j l = true ∧
      l.pktHdr.toMachine = S.addr i ∧ l.box = b ∧ ∃ u, (u, l) ∈ (x.net.machine j).data.passed := by
  have hlinked := Linked.of_reachable h.reached
  have htaken : l ∈ x.net.handedOut i b := by
    simp only [Net.handedOut, Data.taken, valuesAt, List.mem_map, List.mem_filter,
      decide_eq_true_eq]
    exact ⟨(b, l), ⟨⟨_, hl, rfl⟩, rfl⟩, rfl⟩
  obtain ⟨j, hj⟩ := hlinked.sender htaken
  have hsent := (hlinked.handedOut_sublist j i b).subset (List.mem_filter.2 ⟨htaken, hj⟩)
  simp only [Net.sentTo, List.mem_filter, List.mem_map, decide_eq_true_eq, Bool.decide_and,
    Bool.and_eq_true] at hsent
  obtain ⟨⟨⟨u, _⟩, hu, rfl⟩, hto, hbox⟩ := hsent
  refine ⟨j, hj, hto, hbox, u, mem_of_mem_valuesAt ?_⟩
  rw [(hlinked.sound j).sorted.sends u]
  refine List.mem_append_left _ ?_
  simp only [valuesAt, List.mem_map, List.mem_filter, decide_eq_true_eq]
  exact ⟨_, ⟨hu, rfl⟩, rfl⟩

theorem Tested.fromBox (h : Tested S far boot x) {t : Tid} {b : ℕ} {l : Letter}
    (hl : (t, b, l) ∈ (x.net.machine i).data.removed) : l.mailHdr.fromBox = 1 := by
  obtain ⟨j, -, -, -, u, hu⟩ := h.taken hl
  rcases (h.follows j).stands.passed hu with rfl | ⟨l', line, rest, rfl, -⟩ <;> rfl

/-- The box 0 is filled with the messages that are sent first. -/
theorem Tested.of_box_zero (h : Tested S far boot x) {t : Tid} {l : Letter}
    (hl : (t, 0, l) ∈ (x.net.machine i).data.removed) :
    ∃ j, far j = i ∧ l = dataLetter (S.addr j) (S.addr i) := by
  obtain ⟨j, -, hto, hbox, u, hu⟩ := h.taken hl
  rcases (h.follows j).stands.passed hu with rfl | ⟨l', line, rest, rfl, hl', -⟩
  · have hfar : far j = i := S.injective hto
    exact ⟨j, hfar, by rw [hfar]⟩
  · have hbox' : l'.mailHdr.fromBox.toInt.toNat = 0 := hbox
    rw [h.fromBox hl'] at hbox'
    exact absurd hbox' (by decide)

/-- The box 1 is filled with acknowledgements, and who has sent one has printed the message. -/
theorem Tested.of_box_one (h : Tested S far boot x) {t : Tid} {l : Letter}
    (hl : (t, 1, l) ∈ (x.net.machine i).data.removed) :
    (∃ l', l = ackLetter (S.addr (far i)) l') ∧
      ∃ rest, (x.main (far i)).printed = ⟨data, S.addr i, 1⟩ :: rest := by
  obtain ⟨j, -, hto, hbox, u, hu⟩ := h.taken hl
  rcases (h.follows j).stands.passed hu with rfl | ⟨l', line, rest, rfl, hl', hprinted, hshows⟩
  · have hbox' : (0 : ℕ) = 1 := hbox
    omega
  · obtain ⟨j', hfar, rfl⟩ := h.of_box_zero hl'
    obtain rfl : j' = i := S.injective hto
    rw [shows_dataLetter hshows] at hprinted
    rw [hfar]
    exact ⟨⟨_, rfl⟩, rest, hprinted⟩

theorem not_refused_send {site : Site} {which : Assert} {pktHdr : PacketHeader}
    {mailHdr : MailHeader} {text buffer : ℕ → Byte} (hlength : mailHdr.length.toNat ≤ MaxMailSize)
    (hbox : site.HasBox mailHdr.toBox.toInt) :
    ¬ (Act.send pktHdr mailHdr text buffer).Refused site which := by
  intro h
  cases which with
  | sendLength => exact absurd h (not_lt.2 hlength)
  | sendBox => exact h hbox
  | _ => exact h

theorem not_refused_receive {site : Site} {which : Assert} {box : ℤ} (hbox : site.HasBox box) :
    ¬ (Act.receive box).Refused site which := by
  intro h
  cases which with
  | receiveBox => exact h hbox
  | _ => exact h

/-- The arguments of a call are legal, if an acknowledgement goes to the box 1. -/
theorem Main.next_legal {site : Site} {which : Assert} {m m' : Main} {raw : ℕ → Byte} {a : Act}
    (hboxes : 2 ≤ site.numBoxes) (hdata : m.stage = .sendsData →
      m.outMailHdr = ⟨0, 1, BitVec.ofNat 32 (data.length + 1)⟩)
    (hack : m.stage = .sendsAck → m.inMailHdr.fromBox = 1)
    (h : m.next raw = some (some a, m')) : ¬ a.Refused site which := by
  have hzero : site.HasBox 0 := ⟨le_rfl, by omega⟩
  have hone : site.HasBox 1 := ⟨by decide, by omega⟩
  unfold Main.next at h
  split at h <;> cases h
  · rename_i hstage
    rw [hdata hstage]
    exact not_refused_send (by decide) hzero
  · exact not_refused_receive hzero
  · rename_i hstage
    have hlength : (BitVec.ofNat 32 (ack.length + 1)).toNat ≤ MaxMailSize := by decide
    refine not_refused_send hlength ?_
    rw [prepareAck, hack hstage]
    exact hone
  · exact not_refused_receive hone

/-- The arguments of the calls that the threads make are legal. -/
theorem Tested.not_refused (h : Tested S far boot x) (hboxes : 2 ≤ S.numBoxes) {a a' : Act}
    {m : Main} (hchoose : choose (x.net.machine i) (x.main i) a = some (some a', m))
    (which : Assert) : ¬ a'.Refused (S.site i) which := by
  have hfollows := h.follows i
  have hstands := hfollows.stands
  by_cases hcur : (x.net.machine i).currentThread = 0
  · by_cases hout : (x.net.machine i).pc 0 = .out
    · obtain ⟨raw, hnext⟩ := choose_out hcur hout hchoose
      rw [hout] at hstands
      exact Main.next_legal hboxes (fun hstage => (hfollows.ready hstage).2)
        (fun hstage => absurd hstage hstands.of_out) hnext
    · by_cases hgetting : ∃ box mail, (x.net.machine i).pc 0 = .getting box mail
      · obtain ⟨box, mail, hpc⟩ := hgetting
        obtain ⟨raw, hnext⟩ := choose_getting hcur hpc hchoose
        rw [hpc] at hstands
        exact Main.next_legal (m := (x.main i).receives mail) hboxes
          (fun hstage => absurd hstage hstands.of_getting.1)
          (fun hstage => h.fromBox (hstands.of_getting.2 hstage)) hnext
      · obtain ⟨heq, dropped, raw, rfl⟩ :=
          choose_inside hcur hout (fun box mail heq => hgetting ⟨box, mail, heq⟩) hchoose
        cases heq
        exact fun hrefused => hrefused
  · obtain ⟨heq, hsend, hreceive⟩ := choose_other hcur hchoose
    cases heq
    intro hrefused
    cases a with
    | send pktHdr mailHdr text raw => exact hsend _ _ _ _ rfl
    | receive box => exact hreceive box rfl
    | _ => exact hrefused

/-- On any number of machines, of which `i` calls `MailTest` with the address of `far i`, and
whatever is dropped: the first line that a machine prints is the message of a machine that has been
told to write to it, and the second one the acknowledgement of the machine it has written to, which
has then printed its message. It halts after these. The `ASSERT`s of the post office hold, if there
are two boxes. -/
theorem mail_test_acknowledged (S : Sites n) (far : Fin n → Fin n) (boot : Fin n → Boot)
    (raw : Fin n → Main) (x : Test n)
    (h : Reachable (Test.step S) (Test.init S far boot raw) x) (i : Fin n) :
    ((x.main i).printed = [] ∨ ∃ j, far j = i ∧ ((x.main i).printed = [⟨data, S.addr j, 1⟩] ∨
      (x.main i).printed = [⟨data, S.addr j, 1⟩, ⟨ack, S.addr (far i), 1⟩] ∧
        ∃ rest, (x.main (far i)).printed = ⟨data, S.addr i, 1⟩ :: rest)) ∧
      ((x.main i).stage = .halted → (x.main i).printed.length = 2) ∧
        (2 ≤ S.numBoxes → ∀ a a' m which,
          choose (x.net.machine i) (x.main i) a = some (some a', m) →
            code (S.site i) (x.net.machine i).currentThread
              ((x.net.machine i).pc (x.net.machine i).currentThread) (x.net.machine i).data a' ≠
                .error (.assertion which)) := by
  have ht := Tested.of_reachable h
  have hprinted := (ht.follows i).stands.printed
  refine ⟨?_, fun hstage => ?_, ?_⟩
  · rcases hprinted with ⟨hnil, -⟩ | ⟨l, line, hlines, hshows, hl, -⟩ |
      ⟨l, l', line, line', hlines, hshows, hshows', hl, hl'⟩
    · exact .inl hnil
    · obtain ⟨j, hfar, rfl⟩ := ht.of_box_zero hl
      exact .inr ⟨j, hfar, .inl (by rw [hlines, shows_dataLetter hshows])⟩
    · obtain ⟨j, hfar, rfl⟩ := ht.of_box_zero hl
      obtain ⟨⟨_, rfl⟩, hrest⟩ := ht.of_box_one hl'
      refine .inr ⟨j, hfar, .inr ⟨?_, hrest⟩⟩
      rw [hlines, shows_dataLetter hshows, shows_ackLetter hshows']
  · rcases hprinted with ⟨-, hne⟩ | ⟨l, line, -, -, -, hne⟩ | ⟨l, l', line, line', hlines, -⟩
    · exact absurd hstage hne
    · exact absurd hstage hne
    · rw [hlines]
      rfl
  · intro hboxes a a' m which hchoose hcode
    have hlinked := Linked.of_reachable ht.reached
    refine ht.not_refused hboxes hchoose which ((hlinked.sound i).sorted.assertion ?_ hcode)
    intro hfetches
    exact (hlinked.sound i).fetch_full (hlinked.runs i) rfl (stack_of_choose hchoose) hfetches

/-- What is in the variables of the main thread before `MailTest`. -/
def garbage : Main := ⟨.halted, ⟨7, 7, 7⟩, ⟨7, 7, 7⟩, ⟨7, 7, 7⟩, ⟨7, 7, 7⟩, fun _ => 7, []⟩

/-- The machines `i` and `j` exchange their messages, and `i` gets its acknowledgement. -/
def exchange (i j : Fin 2) : List (Fin 2 × Label Act) :=
  let turns (i : Fin 2) (gos : List ℕ) : List (Fin 2 × Label Act) :=
    gos.flatMap fun m => (i, .act (.turn false fun _ => 7)) :: List.replicate m (i, .go)
  let handler (i : Fin 2) (a : Act) : List (Fin 2 × Label Act) :=
    (i, .interrupt a) :: List.replicate 6 (i, .go)
  let sends (i : Fin 2) : List (Fin 2 × Label Act) :=
    turns i [4, 4, 0] ++ handler i .sendDone ++ turns i [3, 4, 3]
  turns i [3] ++ sends i ++ turns j [3] ++ sends j ++
    handler j (.checkPktAvail none) ++ turns j [4, 0, 3, 12, 3, 4, 0] ++ handler j .sendDone ++
      handler i (.checkPktAvail none) ++ turns i [4, 0, 3, 12, 3, 4, 0] ++ handler i .sendDone ++
        turns i [3, 4, 3] ++ handler i (.checkPktAvail none) ++ turns i [4, 0, 3, 12, 3, 0]

theorem mail_test_acknowledged_exchange :
    ∃ x, Reachable (Test.step twoSites) (Test.init twoSites (fun i => 1 - i) (fun _ => blank)
      fun _ => garbage) x ∧ (x.main 0).stage = .halted ∧
        ∃ rest, (x.main 1).printed = ⟨data, 0, 1⟩ :: rest := by
  have hpass : passes (Test.step twoSites) (Test.init twoSites (fun i => 1 - i) (fun _ => blank)
      fun _ => garbage) (exchange 0 1) (fun x => (x.main 0).stage = .halted) = true := by
    decide +kernel
  obtain ⟨x, hx, hstage⟩ := exists_of_passes _ hpass
  rw [decide_eq_true_eq] at hstage
  refine ⟨x, hx, hstage, ?_⟩
  obtain ⟨hprinted, hlength, -⟩ := mail_test_acknowledged twoSites _ _ _ x hx 0
  have htwo := hlength hstage
  rcases hprinted with hnil | ⟨j, -, hone | ⟨-, hrest⟩⟩
  · simp [hnil] at htwo
  · simp [hone] at htwo
  · exact hrest

end MailTest

end Network

end Nachos
