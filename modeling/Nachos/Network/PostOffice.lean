import Nachos.Network.Packet
import Nachos.Threads.Kernel

/-!
# The post office of a machine

`Network` of `network.cc` and `PostOffice`, `MailBox` and `SynchList` as a program over the kernel.
The constructor of `PostOffice` forks the postal worker; any number of other threads call `Send` and
`Receive` and do between these calls whatever does not touch the post office. The code of a thread
between two kernel calls is one step, and so is an interrupt handler: interrupts come in `OneTick`
only, so that none comes while `Network::Receive` empties the input buffer.

What the link does to a packet (`dropped`), what `new` leaves in a buffer (`raw`) and what is in
front of the socket (`datagram`) are choices. `passed`, `sent`, `wire`, `read`, `fetched`, `removed`
and `handed` are history variables.
-/

namespace Nachos

open Lib

namespace Network

/-- The arguments of the constructor of `PostOffice`. -/
structure Site where
  netAddr : BitVec 32
  numBoxes : ℕ

/-- The `ASSERT`s of `network.cc` and `post.cc`, by the routine that makes them. -/
inductive Assert where
  | networkSend
  | checkPktAvail
  | mail
  | deliveryBox
  | deliveryLength
  | sendLength
  | sendBox
  | receiveBox
  | receiveLength
  deriving DecidableEq

/-- Why a thread or a handler does not go on. -/
inductive Failure where
  | disabled
  | assertion (which : Assert)

def check {S : Type} (which : Assert) (p : Prop) [Decidable p] (x : Except Failure S) :
    Except Failure S :=
  if p then x else .error (.assertion which)

/-- The members of `Network` and `PostOffice`, the buffer of the postal worker, and the history. -/
structure Data where
  sendBusy : Bool
  inHdr : PacketHeader
  inbox : ℕ → Byte
  /-- The `NetworkSendInt` interrupts that have been scheduled. -/
  sendInts : ℕ
  boxes : ℕ → List Mail
  buffer : ℕ → Byte
  /-- The calls of `PostOffice::Send`. -/
  passed : List (Tid × Letter)
  /-- The calls of `Network::Send`. -/
  sent : List (Tid × Letter)
  /-- The calls of `SendToSocket`. -/
  wire : List (BitVec 32 × (ℕ → Byte))
  /-- What `ReadFromSocket` has read. -/
  read : List (ℕ → Byte)
  /-- What the postal worker has got from `Network::Receive`. -/
  fetched : List Letter
  /-- What `SynchList::Remove` has taken from the boxes. -/
  removed : List (Tid × ℕ × Letter)
  /-- What `PostOffice::Receive` has returned. -/
  handed : List (Tid × ℕ × Letter)

/-- The constructors of `Network` and `PostOffice`. -/
def Data.new (raw : PacketHeader) (inbox buffer : ℕ → Byte) : Data where
  sendBusy := false
  inHdr := { raw with length := 0 }
  inbox := inbox
  sendInts := 0
  boxes := fun _ => []
  buffer := buffer
  passed := []
  sent := []
  wire := []
  read := []
  fetched := []
  removed := []
  handed := []

/-- Where a thread is in the code of the post office. -/
inductive Pc where
  /-- The main thread before the end of the constructor of `PostOffice`. -/
  | boot
  | out
  /-- `Send` after its `Acquire`. -/
  | sending (pktHdr : PacketHeader) (mailHdr : MailHeader) (data buffer : ℕ → Byte)
  /-- `Send` after its `P`. -/
  | sendDone
  /-- The loop test of `SynchList::Remove`. -/
  | removing (box : ℕ)
  /-- `Get` after its `Remove`. -/
  | getting (box : ℕ) (mail : Mail)
  /-- The loop of `PostalDelivery`. -/
  | delivering
  /-- `PostalDelivery` after its `P`. -/
  | fetching
  /-- `SynchList::Append` after its `Acquire`. -/
  | appending (box : ℕ) (mail : Mail)
  /-- `SynchList::Append` after its `Signal`. -/
  | appended (box : ℕ)

/-- What a thread does next, and what a handler does. -/
inductive Act where
  | send (pktHdr : PacketHeader) (mailHdr : MailHeader) (data raw : ℕ → Byte)
  | receive (box : ℤ)
  | other (o : Call Pc)
  /-- The code of the post office goes on. -/
  | turn (dropped : Bool) (raw : ℕ → Byte)
  | checkPktAvail (datagram : Option (ℕ → Byte))
  | sendDone
  | handle (sems : List ℕ)

def messageAvailable : ℕ := 0
def messageSent : ℕ := 1
def sendLock : Obj := .user 0
def listLock (box : ℕ) : Obj := .user (box + 1)
def listEmpty (box : ℕ) : Obj := .user box

/-- The object belongs to the post office. -/
def Site.owns (site : Site) : Obj → Bool
  | .user n => n ≤ site.numBoxes
  | .ofThread _ => false

/-- The call does not touch the post office. -/
def Site.foreign (site : Site) : Call Pc → Bool
  | .P s => 2 ≤ s
  | .V s => 2 ≤ s
  | .acquire l => !site.owns l
  | .release l => !site.owns l
  | .wait c l => !site.owns c && !site.owns l
  | .signal c l => !site.owns c && !site.owns l
  | .broadcast c l => !site.owns c && !site.owns l
  | .fork _ _ .out => true
  | .fork _ _ _ => false
  | _ => true

/-! ## `Network` -/

/-- `Network::Send`. -/
def Data.networkSend (d : Data) (site : Site) (hdr : PacketHeader) (data : ℕ → Byte)
    (dropped : Bool)
    (raw : ℕ → Byte) : Except Failure Data :=
  check .networkSend (d.sendBusy = false ∧ 0 < hdr.length.toNat ∧
      hdr.length.toNat ≤ MaxPacketSize ∧ hdr.fromMachine = site.netAddr) <|
    if dropped then
      .ok { d with sendInts := d.sendInts + 1 }
    else
      .ok { d with
        sendInts := d.sendInts + 1
        wire := d.wire ++ [(hdr.toMachine, concat raw hdr.toBytes hdr.length.toNat data)] }

/-- `Network::Receive`, into the buffer of the postal worker. -/
def Data.networkReceive (d : Data) : PacketHeader × Data :=
  (d.inHdr, { d with
    inHdr := { d.inHdr with length := 0 }
    buffer := if d.inHdr.length ≠ 0 then splice d.buffer 0 d.inHdr.length.toNat d.inbox
      else d.buffer })

/-- `Network::CheckPktAvail`, with the semaphores that its handler calls `V` on. -/
def Data.checkPktAvail (d : Data) (site : Site) (datagram : Option (ℕ → Byte)) :
    Except Failure (List ℕ × Data) :=
  if d.inHdr.length ≠ 0 then
    .ok ([], d)
  else
    match datagram with
    | none => .ok ([], d)
    | some packet =>
        let hdr := PacketHeader.ofBytes packet
        check .checkPktAvail (hdr.toMachine = site.netAddr ∧ hdr.length.toNat ≤ MaxPacketSize) <|
          .ok ([messageAvailable], { d with
            inHdr := hdr
            inbox := splice d.inbox 0 hdr.length.toNat fun k => packet (headerSize + k)
            read := d.read ++ [packet] })

/-- `Network::SendDone`. -/
def Data.sendDone (d : Data) : Except Failure (List ℕ × Data) :=
  if d.sendInts = 0 then
    .error .disabled
  else
    .ok ([messageSent], { d with sendBusy := false, sendInts := d.sendInts - 1 })

/-! ## `PostOffice` -/

/-- The number of a box is legal. -/
def Site.HasBox (site : Site) (box : ℤ) : Prop := 0 ≤ box ∧ box < site.numBoxes

instance (site : Site) (box : ℤ) : Decidable (site.HasBox box) :=
  inferInstanceAs (Decidable (_ ∧ _))

/-- The box that the letter is for. -/
def Letter.box (l : Letter) : ℕ := l.mailHdr.toBox.toInt.toNat

/-- `PostOffice::Send` up to its `Acquire`. -/
def Data.send (d : Data) (site : Site) (t : Tid) (pktHdr : PacketHeader) (mailHdr : MailHeader)
    (data raw : ℕ → Byte) : Except Failure (Call Pc × Pc × Data) :=
  check .sendLength (mailHdr.length.toNat ≤ MaxMailSize) <|
    check .sendBox (site.HasBox mailHdr.toBox.toInt) <|
      let hdr : PacketHeader :=
        { pktHdr with
          fromMachine := site.netAddr
          length := mailHdr.length + BitVec.ofNat 32 headerSize }
      .ok (.acquire sendLock,
        .sending hdr mailHdr data (concat raw mailHdr.toBytes mailHdr.length.toNat data),
        { d with passed := d.passed ++ [(t, .of hdr mailHdr data)] })

/-- `PostOffice::Receive` up to the `Acquire` of `SynchList::Remove`. -/
def Data.receive (d : Data) (site : Site) (box : ℤ) : Except Failure (Call Pc × Pc × Data) :=
  check .receiveBox (site.HasBox box) <|
    .ok (.acquire (listLock box.toNat), .removing box.toNat, d)

/-- `SynchList::Remove` from its loop on. -/
def Data.remove (d : Data) (t : Tid) (box : ℕ) : Call Pc × Pc × Data :=
  match d.boxes box with
  | [] => (.wait (listEmpty box) (listLock box), .removing box, d)
  | mail :: mails =>
      (.release (listLock box), .getting box mail,
        { d with
          boxes := Function.update d.boxes box mails
          removed := d.removed ++ [(t, box, mail.letter)] })

/-- `PostalDelivery` after `Network::Receive`, up to the `Acquire` of `SynchList::Append`. -/
def Data.put (d : Data) (site : Site) (pktHdr : PacketHeader) (raw : ℕ → Byte) :
    Except Failure (Call Pc × Pc × Data) :=
  let mailHdr := MailHeader.ofBytes d.buffer
  check .deliveryBox (site.HasBox mailHdr.toBox.toInt) <|
    check .deliveryLength (mailHdr.length.toNat ≤ MaxMailSize) <|
      -- the constructor of `Mail`
      check .mail (mailHdr.length.toNat ≤ MaxMailSize) <|
        let mail : Mail := ⟨pktHdr, mailHdr,
          splice raw 0 mailHdr.length.toNat fun k => d.buffer (headerSize + k)⟩
        .ok (.acquire (listLock mail.letter.box), .appending mail.letter.box mail,
          { d with fetched := d.fetched ++ [mail.letter] })

/-- One turn of the loop of `PostalDelivery`, after its `P`. -/
def Data.deliver (d : Data) (site : Site) (raw : ℕ → Byte) : Except Failure (Call Pc × Pc × Data) :=
  d.networkReceive.2.put site d.networkReceive.1 raw

/-- What a thread does that is not in the post office. -/
def Data.outside (d : Data) (site : Site) (t : Tid) : Act → Except Failure (Call Pc × Pc × Data)
  | .send pktHdr mailHdr data raw => d.send site t pktHdr mailHdr data raw
  | .receive box => d.receive site box
  | .other o => if site.foreign o then .ok (o, .out, d) else .error .disabled
  | _ => .error .disabled

/-- The code of a thread up to its next call. -/
def code (site : Site) (t : Tid) (pc : Pc) (d : Data) (a : Act) :
    Except Failure (Call Pc × Pc × Data) :=
  match pc, a with
  | .boot, .turn _ _ => .ok (.fork 1 0 .delivering, .out, d)
  | .out, a => d.outside site t a
  | .sending pktHdr mailHdr data buffer, .turn dropped raw =>
      match d.networkSend site pktHdr buffer dropped raw with
      | .error e => .error e
      | .ok d =>
          .ok (.P messageSent, .sendDone,
            { d with sent := d.sent ++ [(t, .of pktHdr mailHdr data)] })
  | .sendDone, .turn _ _ => .ok (.release sendLock, .out, d)
  | .removing box, .turn _ _ => .ok (d.remove t box)
  -- `Get` copies the mail and `Receive` returns
  | .getting box mail, a =>
      check .receiveLength (mail.mailHdr.length.toNat ≤ MaxMailSize) <|
        Data.outside { d with handed := d.handed ++ [(t, box, mail.letter)] } site t a
  | .delivering, .turn _ _ => .ok (.P messageAvailable, .fetching, d)
  | .fetching, .turn _ raw => d.deliver site raw
  | .appending box mail, .turn _ _ =>
      .ok (.signal (listEmpty box) (listLock box), .appended box,
        { d with boxes := Function.update d.boxes box (d.boxes box ++ [mail]) })
  | .appended box, .turn _ _ => .ok (.release (listLock box), .delivering, d)
  | _, _ => .error .disabled

/-- The interrupt handlers. -/
def interrupt (site : Site) (d : Data) : Act → Except Failure (List ℕ × Data)
  | .checkPktAvail datagram => d.checkPktAvail site datagram
  | .sendDone => d.sendDone
  | .handle sems => if ∀ s ∈ sems, 2 ≤ s then .ok (sems, d) else .error .disabled
  | _ => .error .disabled

/-- The threads of a machine with a post office. -/
def client (site : Site) : Client Pc Data Act where
  next t pc d _ a := (code site t pc d a).toOption
  handler a d := (interrupt site d a).toOption

end Network

end Nachos
