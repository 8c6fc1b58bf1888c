import Nachos.Network.PostOffice
import Nachos.Threads.SemaphoreCalls
import Mathlib.Data.List.Infix

/-!
# Delivery in one machine

A packet is read from the socket into the input buffer, fetched from there by the postal worker,
appended to a box and removed from it again. `Sorted` says that nothing is lost, doubled or
overtaken on the way: what has been read is what has been fetched and what is in the input
buffer, and the letters that have been fetched for a box are those that have been removed from it,
those in it, and the one in the hands of the postal worker. It rests on the semaphore
`messageAvailable`: when `P` returns to the postal worker, there is a packet in the input buffer.
-/

namespace Nachos

open Lib

namespace Network

/-- The values with the key `i`. -/
def valuesAt {κ β : Type} [DecidableEq κ] (i : κ) (xs : List (κ × β)) : List β :=
  (xs.filter fun x => x.1 = i).map Prod.snd

@[simp] theorem valuesAt_append_self {κ β : Type} [DecidableEq κ] (i : κ) (xs : List (κ × β))
    (x : β) : valuesAt i (xs ++ [(i, x)]) = valuesAt i xs ++ [x] := by
  simp [valuesAt]

@[simp] theorem valuesAt_append_of_ne {κ β : Type} [DecidableEq κ] {i j : κ} (h : i ≠ j)
    (xs : List (κ × β)) (x : β) : valuesAt i (xs ++ [(j, x)]) = valuesAt i xs := by
  simp [valuesAt, h.symm]

theorem mem_of_mem_valuesAt {κ β : Type} [DecidableEq κ] {i : κ} {xs : List (κ × β)} {x : β}
    (h : x ∈ valuesAt i xs) : (i, x) ∈ xs := by
  simp only [valuesAt, List.mem_map, List.mem_filter, decide_eq_true_eq] at h
  obtain ⟨⟨j, y⟩, ⟨hmem, rfl⟩, rfl⟩ := h
  exact hmem

/-- The letter is one that `PostOffice::Send` lets pass. -/
structure Letter.WellFormed (l : Letter) (site : Site) : Prop where
  length : l.mailHdr.length.toNat ≤ MaxMailSize
  pktLength : l.pktHdr.length.toNat = headerSize + l.mailHdr.length.toNat
  box : site.HasBox l.mailHdr.toBox.toInt

/-- What the machine sends. -/
def Site.Sends (site : Site) (l : Letter) : Prop :=
  l.pktHdr.fromMachine = site.netAddr ∧ l.WellFormed site

/-- What is sent to the machine. -/
def Site.Accepts (site : Site) (l : Letter) : Prop :=
  l.pktHdr.toMachine = site.netAddr ∧ l.WellFormed site

/-- The letter that has been passed to `PostOffice::Send` and not to `Network::Send`. -/
def Pc.outgoing : Pc → List Letter
  | .sending pktHdr mailHdr data _ => [.of pktHdr mailHdr data]
  | _ => []

/-- The letter that has been removed and not handed out. -/
def Pc.incoming : Pc → List (ℕ × Letter)
  | .getting box mail => [(box, mail.letter)]
  | _ => []

/-- The letter in the hands of the postal worker. -/
def Pc.inHand : Pc → List Letter
  | .appending _ mail => [mail.letter]
  | _ => []

/-- The thread is the postal worker. -/
def Pc.works : Pc → Bool
  | .delivering => true
  | .fetching => true
  | .appending _ _ => true
  | .appended _ => true
  | _ => false

def Pc.fetches : Pc → Bool
  | .fetching => true
  | _ => false

/-- What the local variables of the thread hold. -/
def Pc.Prepared (site : Site) : Pc → Prop
  | .sending pktHdr mailHdr data buffer => site.Sends (.of pktHdr mailHdr data) ∧
      Letter.ofPayload pktHdr buffer = .of pktHdr mailHdr data
  | .appending box mail => box = mail.letter.box
  | _ => True

/-- The letter in the input buffer. -/
def Data.pending (d : Data) : List Letter :=
  if d.inHdr.length = 0 then [] else [.ofPayload d.inHdr d.inbox]

structure Sorted (site : Site) (pc : Tid → Pc) (d : Data) : Prop where
  idle : d.sendBusy = false
  worker : ∀ t, (pc t).works = true → t = 1
  prepared : ∀ t, (pc t).Prepared site
  sends : ∀ t, valuesAt t d.passed = valuesAt t d.sent ++ (pc t).outgoing
  gets : ∀ t, valuesAt t d.removed = valuesAt t d.handed ++ (pc t).incoming
  wire : (d.wire.map fun x => (x.1, Letter.ofWire x.2)).Sublist
    (d.sent.map fun x => (x.2.pktHdr.toMachine, x.2))
  outgoing : ∀ x ∈ d.sent, site.Sends x.2
  received : d.read.map Letter.ofWire = d.fetched ++ d.pending
  accepted : ∀ p ∈ d.read, site.Accepts (Letter.ofWire p)
  boxes : ∀ b, (d.fetched.filter fun l => l.box = b) =
    valuesAt b (d.removed.map Prod.snd) ++ (d.boxes b).map Mail.letter ++
      (pc 1).inHand.filter fun l => l.box = b

theorem Sorted.new (site : Site) (raw : PacketHeader) (inbox buffer : ℕ → Byte) :
    Sorted site (fun _ => .boot) (Data.new raw inbox buffer) where
  idle := rfl
  worker t h := by cases h
  prepared _ := trivial
  sends _ := rfl
  gets _ := rfl
  wire := .slnil
  outgoing x hx := by cases hx
  received := rfl
  accepted p hp := by cases hp
  boxes _ := rfl

namespace Sorted

variable {site : Site} {pc : Tid → Pc} {d d' : Data} {t : Tid} {pc' : Pc}

theorem update_eq {β : Type} (f : Pc → β) (h : f pc' = f (pc t)) (u : Tid) :
    f (Function.update pc t pc' u) = f (pc u) := by
  by_cases hu : u = t
  · subst hu
    rw [Function.update_self, h]
  · rw [Function.update_of_ne hu]

/-- A thread goes on with what it has in its hands. -/
theorem goes (h : Sorted site pc d) (hworks : pc'.works = true → t = 1)
    (hprepared : pc'.Prepared site) (hout : pc'.outgoing = (pc t).outgoing)
    (hin : pc'.incoming = (pc t).incoming) (hhand : pc'.inHand = (pc t).inHand) :
    Sorted site (Function.update pc t pc') d := by
  refine ⟨h.idle, ?_, ?_, ?_, ?_, h.wire, h.outgoing, h.received, h.accepted, ?_⟩
  · rw [Function.forall_update_iff pc fun u pc => pc.works = true → u = 1]
    exact ⟨hworks, fun u _ => h.worker u⟩
  · rw [Function.forall_update_iff pc fun _ pc => pc.Prepared site]
    exact ⟨hprepared, fun u _ => h.prepared u⟩
  · intro u
    rw [update_eq Pc.outgoing hout]
    exact h.sends u
  · intro u
    rw [update_eq Pc.incoming hin]
    exact h.gets u
  · intro b
    rw [update_eq Pc.inHand hhand]
    exact h.boxes b

/-- `PostOffice::Send` has been called. -/
theorem passes (h : Sorted site pc d) {pktHdr : PacketHeader} {mailHdr : MailHeader}
    {data buffer : ℕ → Byte} (hpc : pc t = .out)
    (hprepared : (Pc.sending pktHdr mailHdr data buffer).Prepared site) :
    Sorted site (Function.update pc t (.sending pktHdr mailHdr data buffer))
      { d with passed := d.passed ++ [(t, .of pktHdr mailHdr data)] } := by
  refine ⟨h.idle, ?_, ?_, ?_, ?_, h.wire, h.outgoing, h.received, h.accepted, ?_⟩
  · rw [Function.forall_update_iff pc fun u pc => pc.works = true → u = 1]
    exact ⟨nofun, fun u _ => h.worker u⟩
  · rw [Function.forall_update_iff pc fun _ pc => pc.Prepared site]
    exact ⟨hprepared, fun u _ => h.prepared u⟩
  · intro u
    have hsends := h.sends u
    by_cases hu : u = t
    · subst hu
      rw [hpc] at hsends
      simpa [Pc.outgoing] using hsends
    · simpa [hu] using hsends
  · intro u
    rw [update_eq Pc.incoming (by rw [hpc]; rfl)]
    exact h.gets u
  · intro b
    rw [update_eq Pc.inHand (by rw [hpc]; rfl)]
    exact h.boxes b

/-- `Network::Send` has been called. -/
theorem posts (h : Sorted site pc d) {pktHdr : PacketHeader} {mailHdr : MailHeader}
    {data buffer : ℕ → Byte} (hpc : pc t = .sending pktHdr mailHdr data buffer)
    (hd : d' = { d with
      sendInts := d'.sendInts
      wire := d'.wire
      sent := d.sent ++ [(t, .of pktHdr mailHdr data)] })
    (hwire : d'.wire = d.wire ∨ ∃ raw, d'.wire = d.wire ++
      [(pktHdr.toMachine, concat raw pktHdr.toBytes pktHdr.length.toNat buffer)]) :
    Sorted site (Function.update pc t .sendDone) d' := by
  have hprepared := h.prepared t
  rw [hpc] at hprepared
  obtain ⟨hsends, hpayload⟩ := hprepared
  have hletter : ∀ raw, Letter.ofWire (concat raw pktHdr.toBytes pktHdr.length.toNat buffer) =
      .of pktHdr mailHdr data := by
    intro raw
    rw [Letter.ofWire_concat, hpayload]
    have hhdr : MailHeader.ofBytes buffer = mailHdr := congrArg Letter.mailHdr hpayload
    rw [hhdr]
    exact hsends.2.pktLength.ge
  rw [hd]
  refine ⟨h.idle, ?_, ?_, ?_, ?_, ?_, ?_, h.received, h.accepted, ?_⟩
  · rw [Function.forall_update_iff pc fun u pc => pc.works = true → u = 1]
    exact ⟨nofun, fun u _ => h.worker u⟩
  · rw [Function.forall_update_iff pc fun _ pc => pc.Prepared site]
    exact ⟨trivial, fun u _ => h.prepared u⟩
  · intro u
    have hsends := h.sends u
    by_cases hu : u = t
    · subst hu
      rw [hpc] at hsends
      simpa [Pc.outgoing] using hsends
    · simpa [hu] using hsends
  · intro u
    rw [update_eq Pc.incoming (by rw [hpc]; rfl)]
    exact h.gets u
  · simp only [List.map_append, List.map_cons, List.map_nil]
    rcases hwire with hwire | ⟨raw, hwire⟩
    · rw [hwire]
      exact h.wire.trans (List.sublist_append_left _ _)
    · rw [hwire, List.map_append, List.map_cons, List.map_nil, hletter raw]
      exact h.wire.append (.refl _)
  · intro x hx
    rcases List.mem_append.1 hx with hx | hx
    · exact h.outgoing x hx
    · rw [List.mem_singleton.1 hx]
      exact hsends
  · intro b
    rw [update_eq Pc.inHand (by rw [hpc]; rfl)]
    exact h.boxes b

/-- `SynchList::Remove` takes the first mail from the box. -/
theorem removes (h : Sorted site pc d) {box : ℕ} {mail : Mail} {mails : List Mail}
    (hpc : pc t = .removing box) (hbox : d.boxes box = mail :: mails) :
    Sorted site (Function.update pc t (.getting box mail))
      { d with
        boxes := Function.update d.boxes box mails
        removed := d.removed ++ [(t, box, mail.letter)] } := by
  refine ⟨h.idle, ?_, ?_, ?_, ?_, h.wire, h.outgoing, h.received, h.accepted, ?_⟩
  · rw [Function.forall_update_iff pc fun u pc => pc.works = true → u = 1]
    exact ⟨nofun, fun u _ => h.worker u⟩
  · rw [Function.forall_update_iff pc fun _ pc => pc.Prepared site]
    exact ⟨trivial, fun u _ => h.prepared u⟩
  · intro u
    rw [update_eq Pc.outgoing (by rw [hpc]; rfl)]
    exact h.sends u
  · intro u
    have hgets := h.gets u
    by_cases hu : u = t
    · subst hu
      rw [hpc] at hgets
      simpa [Pc.incoming] using hgets
    · simpa [hu] using hgets
  · intro b
    rw [update_eq Pc.inHand (by rw [hpc]; rfl), h.boxes b]
    simp only [List.map_append, List.map_cons, List.map_nil]
    by_cases hb : b = box
    · subst hb
      rw [valuesAt_append_self, Function.update_self, hbox]
      simp
    · rw [valuesAt_append_of_ne hb, Function.update_of_ne hb]

/-- `PostOffice::Receive` returns. -/
theorem hands (h : Sorted site pc d) {box : ℕ} {mail : Mail} (hpc : pc t = .getting box mail) :
    Sorted site (Function.update pc t .out)
      { d with handed := d.handed ++ [(t, box, mail.letter)] } := by
  refine ⟨h.idle, ?_, ?_, ?_, ?_, h.wire, h.outgoing, h.received, h.accepted, ?_⟩
  · rw [Function.forall_update_iff pc fun u pc => pc.works = true → u = 1]
    exact ⟨nofun, fun u _ => h.worker u⟩
  · rw [Function.forall_update_iff pc fun _ pc => pc.Prepared site]
    exact ⟨trivial, fun u _ => h.prepared u⟩
  · intro u
    rw [update_eq Pc.outgoing (by rw [hpc]; rfl)]
    exact h.sends u
  · intro u
    have hgets := h.gets u
    by_cases hu : u = t
    · subst hu
      rw [hpc] at hgets
      simpa [Pc.incoming] using hgets
    · simpa [hu] using hgets
  · intro b
    rw [update_eq Pc.inHand (by rw [hpc]; rfl)]
    exact h.boxes b

/-- The letter in the input buffer is one that has been sent to the machine. -/
theorem accepts_pending (h : Sorted site pc d) (hfull : d.inHdr.length ≠ 0) :
    site.Accepts (.ofPayload d.inHdr d.inbox) := by
  have hmem : Letter.ofPayload d.inHdr d.inbox ∈ d.read.map Letter.ofWire := by
    rw [h.received, Data.pending, if_neg hfull]
    simp
  obtain ⟨p, hp, heq⟩ := List.mem_map.1 hmem
  rw [← heq]
  exact h.accepted p hp

/-- The postal worker takes the packet from the input buffer. -/
theorem fetches (h : Sorted site pc d) (hpc : pc t = .fetching) (hfull : d.inHdr.length ≠ 0)
    {mail : Mail} (hmail : mail.letter = .ofPayload d.inHdr d.inbox) (buffer : ℕ → Byte) :
    Sorted site (Function.update pc t (.appending mail.letter.box mail))
      { d with
        inHdr := { d.inHdr with length := 0 }
        buffer := buffer
        fetched := d.fetched ++ [mail.letter] } := by
  obtain rfl : t = 1 := h.worker t (by rw [hpc]; rfl)
  refine ⟨h.idle, ?_, ?_, ?_, ?_, h.wire, h.outgoing, ?_, h.accepted, ?_⟩
  · rw [Function.forall_update_iff pc fun u pc => pc.works = true → u = 1]
    exact ⟨fun _ => rfl, fun u _ => h.worker u⟩
  · rw [Function.forall_update_iff pc fun _ pc => pc.Prepared site]
    exact ⟨rfl, fun u _ => h.prepared u⟩
  · intro u
    rw [update_eq Pc.outgoing (by rw [hpc]; rfl)]
    exact h.sends u
  · intro u
    rw [update_eq Pc.incoming (by rw [hpc]; rfl)]
    exact h.gets u
  · have hreceived := h.received
    rw [Data.pending, if_neg hfull, ← hmail] at hreceived
    simpa [Data.pending] using hreceived
  · intro b
    have hboxes := h.boxes b
    rw [hpc] at hboxes
    rw [Function.update_self, List.filter_append, hboxes]
    simp [Pc.inHand]

/-- The postal worker puts the mail into its box. -/
theorem appends (h : Sorted site pc d) {box : ℕ} {mail : Mail} (hpc : pc t = .appending box mail) :
    Sorted site (Function.update pc t (.appended box))
      { d with boxes := Function.update d.boxes box (d.boxes box ++ [mail]) } := by
  obtain rfl : t = 1 := h.worker t (by rw [hpc]; rfl)
  have hbox : box = mail.letter.box := by
    have hprepared := h.prepared 1
    rwa [hpc] at hprepared
  refine ⟨h.idle, ?_, ?_, ?_, ?_, h.wire, h.outgoing, h.received, h.accepted, ?_⟩
  · rw [Function.forall_update_iff pc fun u pc => pc.works = true → u = 1]
    exact ⟨fun _ => rfl, fun u _ => h.worker u⟩
  · rw [Function.forall_update_iff pc fun _ pc => pc.Prepared site]
    exact ⟨trivial, fun u _ => h.prepared u⟩
  · intro u
    rw [update_eq Pc.outgoing (by rw [hpc]; rfl)]
    exact h.sends u
  · intro u
    rw [update_eq Pc.incoming (by rw [hpc]; rfl)]
    exact h.gets u
  · intro b
    have hboxes := h.boxes b
    rw [hpc] at hboxes
    rw [Function.update_self, hboxes]
    by_cases hb : b = box
    · subst hb
      simp [Pc.inHand, ← hbox]
    · have hne : mail.letter.box ≠ b := fun heq => hb (heq.symm.trans hbox.symm)
      simp [Pc.inHand, hb, hne]

/-- A packet is read into the empty input buffer. -/
theorem arrives (h : Sorted site pc d) (hempty : d.inHdr.length = 0) {packet : ℕ → Byte}
    (hpacket : site.Accepts (.ofWire packet)) :
    Sorted site pc { d with
      inHdr := PacketHeader.ofBytes packet
      inbox := splice d.inbox 0 (PacketHeader.ofBytes packet).length.toNat
        fun k => packet (headerSize + k)
      read := d.read ++ [packet] } := by
  have hlength := hpacket.2.pktLength
  have hfull : (PacketHeader.ofBytes packet).length ≠ 0 := by
    intro hzero
    have hheader : (Letter.ofWire packet).pktHdr = PacketHeader.ofBytes packet := rfl
    rw [hheader, hzero, headerSize] at hlength
    have hzero' : (0 : BitVec 32).toNat = 0 := rfl
    omega
  have hletter : Letter.ofPayload (.ofBytes packet) (splice d.inbox 0
      (PacketHeader.ofBytes packet).length.toNat fun k => packet (headerSize + k)) =
        .ofWire packet :=
    Letter.ofPayload_congr hlength.ge fun k hk => splice_front hk
  refine ⟨h.idle, h.worker, h.prepared, h.sends, h.gets, h.wire, h.outgoing, ?_, ?_, h.boxes⟩
  · have hreceived := h.received
    rw [Data.pending, if_pos hempty, List.append_nil] at hreceived
    simp only [List.map_append, List.map_cons, List.map_nil, Data.pending]
    rw [if_neg hfull, hletter, hreceived]
  · intro p hp
    rcases List.mem_append.1 hp with hp | hp
    · exact h.accepted p hp
    · rw [List.mem_singleton.1 hp]
      exact hpacket

end Sorted

/-! ## The code of the threads -/

@[simp] theorem check_ok {S : Type} (which : Assert) (p : Prop) [Decidable p] (x : Except Failure S)
    (s : S) : check which p x = .ok s ↔ p ∧ x = .ok s := by
  by_cases h : p <;> simp [check, h]

theorem ok_of_toOption {S : Type} {x : Except Failure S} {s : S} (h : x.toOption = some s) :
    x = .ok s := by
  cases x with
  | error e => cases h
  | ok r =>
      cases h
      rfl

/-- What the thread `t` does that is not in the post office. -/
inductive Outside (site : Site) (t : Tid) (d : Data) : Call Pc → Pc → Data → Prop
  | send (pktHdr : PacketHeader) (mailHdr : MailHeader) (data buffer : ℕ → Byte)
      (h : (Pc.sending pktHdr mailHdr data buffer).Prepared site) :
      Outside site t d (.acquire sendLock) (.sending pktHdr mailHdr data buffer)
        { d with passed := d.passed ++ [(t, .of pktHdr mailHdr data)] }
  | receive (box : ℕ) : Outside site t d (.acquire (listLock box)) (.removing box) d
  | other (o : Call Pc) (h : site.foreign o = true) : Outside site t d o .out d

/-- The mail that the postal worker makes of its buffer. -/
def Data.mail (d : Data) (pktHdr : PacketHeader) (raw : ℕ → Byte) : Mail :=
  ⟨pktHdr, .ofBytes d.buffer, splice raw 0 (MailHeader.ofBytes d.buffer).length.toNat
    fun k => d.buffer (headerSize + k)⟩

/-- What the thread `t` does up to its next call. -/
inductive Moves (site : Site) (t : Tid) : Pc → Data → Call Pc → Pc → Data → Prop
  | boot (d : Data) : Moves site t .boot d (.fork 1 0 .delivering) .out d
  | out (d : Data) {o pc' d'} (h : Outside site t d o pc' d') : Moves site t .out d o pc' d'
  | posts (d : Data) (pktHdr : PacketHeader) (mailHdr : MailHeader) (data buffer : ℕ → Byte)
      (sendInts : ℕ) (wire : List (BitVec 32 × (ℕ → Byte)))
      (h : wire = d.wire ∨ ∃ raw, wire = d.wire ++
        [(pktHdr.toMachine, concat raw pktHdr.toBytes pktHdr.length.toNat buffer)]) :
      Moves site t (.sending pktHdr mailHdr data buffer) d (.P messageSent) .sendDone { d with
        sendInts := sendInts
        wire := wire
        sent := d.sent ++ [(t, .of pktHdr mailHdr data)] }
  | sendDone (d : Data) : Moves site t .sendDone d (.release sendLock) .out d
  | waits (d : Data) (box : ℕ) :
      Moves site t (.removing box) d (.wait (listEmpty box) (listLock box)) (.removing box) d
  | removes (d : Data) (box : ℕ) (mail : Mail) (mails : List Mail)
      (h : d.boxes box = mail :: mails) :
      Moves site t (.removing box) d (.release (listLock box)) (.getting box mail) { d with
        boxes := Function.update d.boxes box mails
        removed := d.removed ++ [(t, box, mail.letter)] }
  | hands (d : Data) (box : ℕ) (mail : Mail) {o pc' d'}
      (h : Outside site t { d with handed := d.handed ++ [(t, box, mail.letter)] } o pc' d') :
      Moves site t (.getting box mail) d o pc' d'
  | delivering (d : Data) : Moves site t .delivering d (.P messageAvailable) .fetching d
  | fetches (d : Data) (mail : Mail) (raw : ℕ → Byte)
      (h : mail = d.networkReceive.2.mail d.inHdr raw) :
      Moves site t .fetching d (.acquire (listLock mail.letter.box))
        (.appending mail.letter.box mail)
        { d.networkReceive.2 with fetched := d.fetched ++ [mail.letter] }
  | appends (d : Data) (box : ℕ) (mail : Mail) :
      Moves site t (.appending box mail) d (.signal (listEmpty box) (listLock box)) (.appended box)
        { d with boxes := Function.update d.boxes box (d.boxes box ++ [mail]) }
  | appended (d : Data) (box : ℕ) :
      Moves site t (.appended box) d (.release (listLock box)) .delivering d

/-- What `PostOffice::Send` makes of a message. -/
theorem prepared_of_send {site : Site} {pktHdr : PacketHeader} {mailHdr : MailHeader}
    (data raw : ℕ → Byte) (hlength : mailHdr.length.toNat ≤ MaxMailSize)
    (hbox : site.HasBox mailHdr.toBox.toInt) :
    (Pc.sending { pktHdr with
      fromMachine := site.netAddr
      length := mailHdr.length + BitVec.ofNat 32 headerSize } mailHdr data
        (concat raw mailHdr.toBytes mailHdr.length.toNat data)).Prepared site := by
  refine ⟨⟨rfl, hlength, ?_, hbox⟩, Letter.ofPayload_concat _ mailHdr raw data⟩
  change (mailHdr.length + BitVec.ofNat 32 headerSize).toNat = headerSize + mailHdr.length.toNat
  have hmax : MaxMailSize = 40 := rfl
  rw [BitVec.toNat_add, BitVec.toNat_ofNat, headerSize]
  omega

theorem Data.mail_letter (d : Data) (pktHdr : PacketHeader) (raw : ℕ → Byte) :
    (d.mail pktHdr raw).letter = .ofPayload pktHdr d.buffer := by
  simp only [Mail.letter, mail]
  exact Letter.of_congr fun _ hk => splice_front hk

section

variable {site : Site} {t : Tid} {pc pc' : Pc} {d d' : Data} {a : Act} {o : Call Pc}

theorem outside_moves (h : d.outside site t a = .ok (o, pc', d')) : Outside site t d o pc' d' := by
  cases a with
  | send pktHdr mailHdr data raw =>
      simp only [Data.outside, Data.send, check_ok, Except.ok.injEq, Prod.mk.injEq] at h
      obtain ⟨hlength, hbox, rfl, rfl, rfl⟩ := h
      exact .send _ mailHdr data _ (prepared_of_send data raw hlength hbox)
  | receive box =>
      simp only [Data.outside, Data.receive, check_ok, Except.ok.injEq, Prod.mk.injEq] at h
      obtain ⟨-, rfl, rfl, rfl⟩ := h
      exact .receive box.toNat
  | other o' =>
      simp only [Data.outside] at h
      split at h
      · rename_i hforeign
        cases h
        exact .other o hforeign
      · cases h
  | _ => cases h

theorem code_moves (h : code site t pc d a = .ok (o, pc', d')) : Moves site t pc d o pc' d' := by
  cases pc with
  | out => exact .out d (outside_moves h)
  | getting box mail =>
      simp only [code, check_ok] at h
      exact .hands d box mail (outside_moves h.2)
  | sending pktHdr mailHdr data buffer =>
      cases a with
      | turn dropped raw =>
          simp only [code] at h
          split at h
          · cases h
          · rename_i d₁ hd₁
            cases h
            simp only [Data.networkSend, check_ok] at hd₁
            obtain ⟨-, hd₁⟩ := hd₁
            split at hd₁
            · cases hd₁
              exact .posts d pktHdr mailHdr data buffer _ _ (.inl rfl)
            · cases hd₁
              exact .posts d pktHdr mailHdr data buffer _ _ (.inr ⟨raw, rfl⟩)
      | _ => cases h
  | removing box =>
      cases a with
      | turn dropped raw =>
          simp only [code, Data.remove, Except.ok.injEq] at h
          split at h
          · cases h
            exact .waits d box
          · rename_i hbox
            cases h
            exact .removes d box _ _ hbox
      | _ => cases h
  | fetching =>
      cases a with
      | turn dropped raw =>
          simp only [code, Data.deliver, Data.put, check_ok, Except.ok.injEq, Prod.mk.injEq] at h
          obtain ⟨-, -, -, rfl, rfl, rfl⟩ := h
          exact .fetches d _ raw rfl
      | _ => cases h
  | boot =>
      cases a with
      | turn dropped raw =>
          cases h
          exact .boot d
      | _ => cases h
  | sendDone =>
      cases a with
      | turn dropped raw =>
          cases h
          exact .sendDone d
      | _ => cases h
  | delivering =>
      cases a with
      | turn dropped raw =>
          cases h
          exact .delivering d
      | _ => cases h
  | appending box mail =>
      cases a with
      | turn dropped raw =>
          cases h
          exact .appends d box mail
      | _ => cases h
  | appended box =>
      cases a with
      | turn dropped raw =>
          cases h
          exact .appended d box
      | _ => cases h

end

namespace Sorted

variable {site : Site} {pc : Tid → Pc} {d d' : Data} {t : Tid} {pc' : Pc} {o : Call Pc} {a : Act}

theorem outside (h : Sorted site pc d) (hpc : pc t = .out) (hmove : Outside site t d o pc' d') :
    Sorted site (Function.update pc t pc') d' := by
  cases hmove with
  | send pktHdr mailHdr data buffer hprepared => exact h.passes hpc hprepared
  | receive box =>
      exact h.goes nofun trivial (by rw [hpc]; rfl) (by rw [hpc]; rfl) (by rw [hpc]; rfl)
  | other o ho => exact h.goes nofun trivial (by rw [hpc]) (by rw [hpc]) (by rw [hpc])

/-- The postal worker finds the letter in the input buffer. -/
theorem mail_letter (h : Sorted site pc d) (hfull : d.inHdr.length ≠ 0) (raw : ℕ → Byte) :
    (d.networkReceive.2.mail d.inHdr raw).letter = .ofPayload d.inHdr d.inbox := by
  have haccept := h.accepts_pending hfull
  rw [Data.mail_letter]
  simp only [Data.networkReceive, if_pos hfull]
  exact Letter.ofPayload_congr haccept.2.pktLength.ge fun k hk => splice_front hk

/-- A thread goes on to its next call. -/
theorem act (h : Sorted site pc d) (hfull : (pc t).fetches = true → d.inHdr.length ≠ 0)
    (hmove : Moves site t (pc t) d o pc' d') : Sorted site (Function.update pc t pc') d' := by
  generalize hpc : pc t = p at hmove hfull
  cases hmove with
  | boot =>
      exact h.goes nofun trivial (by rw [hpc]; rfl) (by rw [hpc]; rfl) (by rw [hpc]; rfl)
  | out _ hout => exact h.outside hpc hout
  | posts _ pktHdr mailHdr data buffer sendInts wire hwire => exact h.posts hpc rfl hwire
  | sendDone =>
      exact h.goes nofun trivial (by rw [hpc]; rfl) (by rw [hpc]; rfl) (by rw [hpc]; rfl)
  | waits _ box => exact h.goes nofun trivial (by rw [hpc]) (by rw [hpc]) (by rw [hpc])
  | removes _ box mail mails hbox => exact h.removes hpc hbox
  | hands _ box mail hout =>
      have hsorted := (h.hands hpc).outside (Function.update_self ..) hout
      rwa [Function.update_idem] at hsorted
  | delivering =>
      have hworker := h.worker t (by rw [hpc]; rfl)
      exact h.goes (fun _ => hworker) trivial (by rw [hpc]; rfl) (by rw [hpc]; rfl)
        (by rw [hpc]; rfl)
  | fetches _ mail raw hmail =>
      refine h.fetches hpc (hfull rfl) ?_ _
      rw [hmail, h.mail_letter (hfull rfl)]
  | appends _ box mail => exact h.appends hpc
  | appended _ box =>
      have hworker := h.worker t (by rw [hpc]; rfl)
      exact h.goes (fun _ => hworker) trivial (by rw [hpc]; rfl) (by rw [hpc]; rfl)
        (by rw [hpc]; rfl)

/-- An interrupt handler runs. -/
theorem interrupt {sems : List ℕ} (h : Sorted site pc d)
    (hpacket : ∀ packet, a = .checkPktAvail (some packet) → site.Accepts (.ofWire packet))
    (hcode : interrupt site d a = .ok (sems, d')) : Sorted site pc d' := by
  cases a with
  | checkPktAvail datagram =>
      simp only [Network.interrupt, Data.checkPktAvail] at hcode
      split at hcode
      · cases hcode
        exact h
      · rename_i hempty
        cases datagram with
        | none =>
            cases hcode
            exact h
        | some packet =>
            simp only [check_ok] at hcode
            obtain ⟨-, hcode⟩ := hcode
            cases hcode
            exact h.arrives (not_not.1 hempty) (hpacket packet rfl)
  | sendDone =>
      simp only [Network.interrupt, Data.sendDone] at hcode
      split at hcode
      · cases hcode
      · cases hcode
        exact ⟨rfl, h.worker, h.prepared, h.sends, h.gets, h.wire, h.outgoing, h.received,
          h.accepted, h.boxes⟩
  | handle sems' =>
      simp only [Network.interrupt] at hcode
      split at hcode
      · cases hcode
        exact h
      · cases hcode
  | _ => cases hcode

end Sorted

/-! ## Runs -/

section

variable {site : Site} {t : Tid} {pc pc' : Pc} {d d' : Data} {a : Act} {o : Call Pc}

/-- Nobody else calls `P` or `V` on the semaphore of the postal worker. -/
theorem Site.foreign_count (h : site.foreign o = true) :
    o.countP messageAvailable = 0 ∧ o.countV messageAvailable = 0 := by
  refine Call.count_of_other ?_
  cases o with
  | P s =>
      simp only [Site.foreign, decide_eq_true_eq] at h
      simp only [Call.about, messageAvailable, ne_eq, Option.some.injEq, QueueId.semaphore.injEq]
      omega
  | V s =>
      simp only [Site.foreign, decide_eq_true_eq] at h
      simp only [Call.about, messageAvailable, ne_eq, Option.some.injEq, QueueId.semaphore.injEq]
      omega
  | _ => simp [Call.about]

theorem Outside.counts (h : Outside site t d o pc' d') :
    o.countV messageAvailable = 0 ∧ o.countP messageAvailable = 0 ∧ d'.read = d.read ∧
      d'.fetched = d.fetched ∧ pc'.fetches = false := by
  cases h with
  | other o ho =>
      obtain ⟨hP, hV⟩ := Site.foreign_count ho
      exact ⟨hV, hP, rfl, rfl, rfl⟩
  | _ => exact ⟨rfl, rfl, rfl, rfl, rfl⟩

/-- The postal worker calls `P` before it fetches a packet. -/
theorem Moves.counts (h : Moves site t pc d o pc' d') :
    o.countV messageAvailable = 0 ∧ d'.read = d.read ∧
      (d'.fetched.length + if pc'.fetches then 1 else 0) =
        (d.fetched.length + if pc.fetches then 1 else 0) + o.countP messageAvailable ∧
      (pc.works = false → o.countP messageAvailable = 0 ∧
        d'.fetched = d.fetched ∧ pc'.fetches = false) := by
  cases h with
  | out _ h =>
      obtain ⟨hV, hP, hread, hfetched, hpc⟩ := h.counts
      rw [hV, hP, hread, hfetched, hpc]
      exact ⟨rfl, rfl, rfl, fun _ => ⟨rfl, rfl, rfl⟩⟩
  | hands _ box mail h =>
      obtain ⟨hV, hP, hread, hfetched, hpc⟩ := h.counts
      rw [hV, hP, hread, hfetched, hpc]
      exact ⟨rfl, rfl, rfl, fun _ => ⟨rfl, rfl, rfl⟩⟩
  | fetches _ mail raw h =>
      refine ⟨rfl, rfl, ?_, nofun⟩
      rw [List.length_append]
      rfl
  | delivering => exact ⟨rfl, rfl, rfl, nofun⟩
  | appends => exact ⟨rfl, rfl, rfl, nofun⟩
  | appended => exact ⟨rfl, rfl, rfl, nofun⟩
  | _ => exact ⟨rfl, rfl, rfl, fun _ => ⟨rfl, rfl, rfl⟩⟩

/-- The only thread that starts in the post office is the postal worker. -/
theorem Moves.fork {u : Tid} {join : ℤ} {start : Pc}
    (h : Moves site t pc d (.fork u join start) pc' d') :
    start = .out ∨ start = .delivering ∧ u = 1 := by
  have hout : ∀ {d₁ : Data}, Outside site t d₁ (.fork u join start) pc' d' → start = .out := by
    intro d₁ hout
    cases hout with
    | other o ho => cases start <;> first | rfl | cases ho
  cases h with
  | boot => exact .inr ⟨rfl, rfl⟩
  | out _ h => exact .inl (hout h)
  | hands _ box mail h => exact .inl (hout h)

/-- A handler calls `V` when it has read a packet. -/
theorem interrupt_counts {sems : List ℕ} (h : interrupt site d a = .ok (sems, d')) :
    d'.read.length = d.read.length + sems.count messageAvailable ∧ d'.fetched = d.fetched := by
  cases a with
  | checkPktAvail datagram =>
      simp only [interrupt, Data.checkPktAvail] at h
      split at h
      · cases h
        exact ⟨rfl, rfl⟩
      · cases datagram with
        | none =>
            cases h
            exact ⟨rfl, rfl⟩
        | some packet =>
            simp only [check_ok] at h
            obtain ⟨-, h⟩ := h
            cases h
            exact ⟨by simp, rfl⟩
  | sendDone =>
      simp only [interrupt, Data.sendDone] at h
      split at h
      · cases h
      · cases h
        exact ⟨rfl, rfl⟩
  | handle sems' =>
      simp only [interrupt] at h
      split at h
      · rename_i hsems
        cases h
        refine ⟨?_, rfl⟩
        rw [List.count_eq_zero.2, Nat.add_zero]
        intro hmem
        exact absurd (hsems _ hmem) (by decide)
      · cases h
  | _ => cases h

end

/-- What is true of a machine in every state. -/
structure Sound (site : Site) (k : Kernel Pc Data) : Prop where
  sorted : Sorted site k.pc k.data
  fresh : ∀ t, k.numThreads ≤ t → k.pc t = .boot
  fetches : k.calledP messageAvailable 1 =
    k.data.fetched.length + if (k.pc 1).fetches then 1 else 0
  others : ∀ t, t ≠ 1 → k.calledP messageAvailable t = 0
  arrivals : completedV messageAvailable k.log = k.data.read.length

namespace Sound

variable {site : Site} {k k' : Kernel Pc Data} {lab : Label Act} {data : Data}
  {initialValue : ℕ → ℤ}

theorem init (site : Site) (raw : PacketHeader) (inbox buffer : ℕ → Byte) (initialValue : ℕ → ℤ) :
    Sound site (Kernel.init .boot (Data.new raw inbox buffer) initialValue) :=
  ⟨.new site raw inbox buffer, fun _ _ => rfl, rfl, fun _ _ => rfl, rfl⟩

/-- When the postal worker fetches a packet there is one in the input buffer. -/
theorem full (h : Sound site k) (hr : Kernel.Runs (client site) .boot data initialValue k)
    (hvalue : initialValue messageAvailable = 0) (hstack : k.stack 1 = [])
    (hpc : (k.pc 1).fetches = true) : k.data.inHdr.length ≠ 0 := by
  intro hempty
  have hnonneg := (hr.semaphore_zero hvalue).nonneg
  have hcount : ∀ t, t ≠ 1 → k.log.count (.pDone messageAvailable t) = 0 := by
    intro t ht
    have hnone := h.others t ht
    unfold Kernel.calledP at hnone
    omega
  rw [units, h.arrivals, completedP_eq_count hcount] at hnonneg
  have hfetches := h.fetches
  rw [Kernel.calledP, hstack, if_pos hpc] at hfetches
  have hreceived := congrArg List.length h.sorted.received
  rw [Data.pending, if_pos hempty, List.append_nil, List.length_map] at hreceived
  simp only [framesOf_nil, List.length_nil] at hfetches
  omega

theorem fetch_full (h : Sound site k) (hr : Kernel.Runs (client site) .boot data initialValue k)
    (hvalue : initialValue messageAvailable = 0) (hstack : k.stack k.currentThread = [])
    (hpc : (k.pc k.currentThread).fetches = true) : k.data.inHdr.length ≠ 0 := by
  have hworker : k.currentThread = 1 := by
    refine h.sorted.worker _ ?_
    cases hk : k.pc k.currentThread <;> simp_all [Pc.fetches, Pc.works]
  rw [hworker] at hpc hstack
  exact h.full hr hvalue hstack hpc

/-- The current thread goes on to its next call, and perhaps a new thread starts. -/
theorem own (h : Sound site k) (hr : Kernel.Runs (client site) .boot data initialValue k)
    (hvalue : initialValue messageAvailable = 0) {o : Call Pc} {pc : Pc}
    (hstack : k.stack k.currentThread = [])
    (hmove : Moves site k.currentThread (k.pc k.currentThread) k.data o pc k'.data)
    (hexec : (k.advance pc k'.data).exec o = .ok k')
    (hcalls : Kernel.Calls messageAvailable k k' (o.countP messageAvailable)
      (o.countV messageAvailable)) : Sound site k' := by
  have hcur := hr.placed.current_lt
  obtain ⟨hV, hread, hfetched, hidle⟩ := hmove.counts
  have hsorted := h.sorted.act (h.fetch_full hr hvalue hstack) hmove
  -- the program points after the step, with those of a new thread
  obtain ⟨hpcs, hfresh, hone⟩ : Sorted site k'.pc k'.data ∧
      (∀ t, k'.numThreads ≤ t → k'.pc t = .boot) ∧
        (k'.pc 1).fetches = (Function.update k.pc k.currentThread pc 1).fetches := by
    rcases Kernel.exec_program hexec with hq | ⟨join, start, rfl, hpc, -, hnum, -⟩
    · have hpc : k'.pc = Function.update k.pc k.currentThread pc := hq.pc
      refine ⟨hpc ▸ hsorted, fun t ht => ?_, by rw [hpc]⟩
      have hlt : k.numThreads ≤ t := hq.numThreads ▸ ht
      rw [hpc, Function.update_of_ne (hcur.trans_le hlt).ne']
      exact h.fresh t hlt
    · have hborn : Function.update k.pc k.currentThread pc k.numThreads = .boot := by
        rw [Function.update_of_ne hcur.ne', h.fresh _ le_rfl]
      have hpc' : k'.pc =
          Function.update (Function.update k.pc k.currentThread pc) k.numThreads start := hpc
      have hnum' : k'.numThreads = k.numThreads + 1 := hnum
      have hstart : start.Prepared site ∧ start.outgoing = [] ∧ start.incoming = [] ∧
          start.inHand = [] ∧ start.fetches = false ∧ (start.works = true → k.numThreads = 1) := by
        rcases hmove.fork with rfl | ⟨rfl, hu⟩
        · exact ⟨trivial, rfl, rfl, rfl, rfl, nofun⟩
        · exact ⟨trivial, rfl, rfl, rfl, rfl, fun _ => hu⟩
      obtain ⟨hprepared, hout, hin, hhand, hfetches, hworks⟩ := hstart
      rw [hpc', hnum']
      refine ⟨hsorted.goes hworks hprepared ?_ ?_ ?_, fun t ht => ?_, ?_⟩
      · rw [hout, hborn]
        rfl
      · rw [hin, hborn]
        rfl
      · rw [hhand, hborn]
        rfl
      · have hlt : k.numThreads < t := ht
        rw [Function.update_of_ne hlt.ne', Function.update_of_ne (hcur.trans hlt).ne']
        exact h.fresh t hlt.le
      · exact Sorted.update_eq Pc.fetches (by rw [hborn, hfetches]; rfl) 1
  have hcount := hcalls.calledP
  refine ⟨hpcs, hfresh, ?_, ?_, ?_⟩
  · rw [hcount 1, hone, h.fetches]
    by_cases ht : 1 = k.currentThread
    · have hnew : Function.update k.pc k.currentThread pc 1 = pc := ht ▸ Function.update_self ..
      rw [if_pos ht, hnew, congrArg k.pc ht]
      exact hfetched.symm
    · have hnot : (k.pc k.currentThread).works = false :=
        Bool.eq_false_iff.2 fun hw => ht (h.sorted.worker _ hw).symm
      rw [if_neg ht, Function.update_of_ne ht, (hidle hnot).2.1, Nat.add_zero]
  · intro t ht
    rw [hcount t, h.others t ht, Nat.zero_add]
    by_cases htc : t = k.currentThread
    · have hnot : (k.pc k.currentThread).works = false :=
        Bool.eq_false_iff.2 fun hw => ht (htc.trans (h.sorted.worker _ hw))
      rw [if_pos htc, (hidle hnot).1]
    · exact if_neg htc
  · rw [hcalls.completedV, hV, Nat.add_zero, h.arrivals, hread]

/-- A step of the machine keeps it sound, if what it reads from its socket has been sent to it. -/
theorem step (h : Sound site k) (hr : Kernel.Runs (client site) .boot data initialValue k)
    (hvalue : initialValue messageAvailable = 0)
    (hpacket : ∀ packet, lab = .interrupt (.checkPktAvail (some packet)) →
      site.Accepts (.ofWire packet))
    (hs : Kernel.step (client site) k lab = .ok k') : Sound site k' := by
  rcases hr.step_calls hs messageAvailable with
    ⟨a, o, pc, rfl, hstack, hnext, hexec, hcalls⟩ | ⟨a, sems, rfl, hhandler, hq, hcalls⟩ |
      ⟨hq, hcalls⟩
  · exact h.own hr hvalue hstack (code_moves (ok_of_toOption hnext)) hexec hcalls
  · have hcode : interrupt site k.data a = .ok (sems, k'.data) := ok_of_toOption hhandler
    obtain ⟨hread, hfetched⟩ := interrupt_counts hcode
    have hpc : k'.pc = k.pc := hq.pc
    refine ⟨?_, ?_, ?_, ?_, ?_⟩
    · rw [hpc]
      exact h.sorted.interrupt (fun packet heq => hpacket packet (heq ▸ rfl)) hcode
    · intro t ht
      rw [hpc]
      exact h.fresh t (hq.numThreads ▸ ht)
    · rw [hcalls.calledP, hpc, hfetched, ite_self, Nat.add_zero]
      exact h.fetches
    · intro t ht
      rw [hcalls.calledP, ite_self, Nat.add_zero]
      exact h.others t ht
    · rw [hcalls.completedV, hread, h.arrivals]
  · refine ⟨?_, ?_, ?_, ?_, ?_⟩
    · rw [hq.pc, hq.data]
      exact h.sorted
    · intro t ht
      rw [hq.pc]
      exact h.fresh t (hq.numThreads ▸ ht)
    · rw [hcalls.calledP, hq.pc, hq.data, ite_self, Nat.add_zero]
      exact h.fetches
    · intro t ht
      rw [hcalls.calledP, ite_self, Nat.add_zero]
      exact h.others t ht
    · rw [hcalls.completedV, hq.data, Nat.add_zero]
      exact h.arrivals

end Sound

end Network

end Nachos
