import Nachos.Filesys.Disk
import Mathlib.Data.List.Basic

/-!
# Packets

The two headers of `network.h` and `post.h` and how they are packed around the data. A message is a
`Mail` when the post office has it in a mailbox, and an array of `MaxWireSize` bytes on the wire:
the header of the packet, the header of the mail, the data, and what `new` left in the rest. A
`Letter` is what all of these say, without the bytes that do not count.
-/

namespace Nachos

open Lib

namespace Network

open Filesys (bytesOf wordAt_bytesOf wordAt_congr)

/-- `sizeof(PacketHeader)` and `sizeof(MailHeader)`. -/
def headerSize : ℕ := 12

def MaxWireSize : ℕ := 64

def MaxPacketSize : ℕ := MaxWireSize - headerSize

def MaxMailSize : ℕ := MaxPacketSize - headerSize

structure PacketHeader where
  toMachine : BitVec 32
  fromMachine : BitVec 32
  length : BitVec 32
  deriving DecidableEq

structure MailHeader where
  toBox : BitVec 32
  fromBox : BitVec 32
  length : BitVec 32
  deriving DecidableEq

/-- A header is stored as three words. -/
def threeWords (w₀ w₁ w₂ : BitVec 32) : ℕ → BitVec 32
  | 0 => w₀
  | 1 => w₁
  | _ => w₂

def PacketHeader.toBytes (h : PacketHeader) : ℕ → Byte :=
  bytesOf (threeWords h.toMachine h.fromMachine h.length)

def MailHeader.toBytes (h : MailHeader) : ℕ → Byte :=
  bytesOf (threeWords h.toBox h.fromBox h.length)

/-- `*(PacketHeader *)buffer`. -/
def PacketHeader.ofBytes (b : ℕ → Byte) : PacketHeader := ⟨wordAt b 0, wordAt b 4, wordAt b 8⟩

/-- `*(MailHeader *)buffer`. -/
def MailHeader.ofBytes (b : ℕ → Byte) : MailHeader := ⟨wordAt b 0, wordAt b 4, wordAt b 8⟩

/-- A header in front of `length` bytes of data, in a buffer that holds `raw`. -/
def concat (raw : ℕ → Byte) (header : ℕ → Byte) (length : ℕ) (data : ℕ → Byte) : ℕ → Byte :=
  splice (splice raw 0 headerSize header) headerSize length data

/-- What a message says. -/
structure Letter where
  pktHdr : PacketHeader
  mailHdr : MailHeader
  data : List Byte
  deriving DecidableEq

/-- The letter with the headers and the first `mailHdr.length` bytes of `data`. -/
def Letter.of (pktHdr : PacketHeader) (mailHdr : MailHeader) (data : ℕ → Byte) : Letter :=
  ⟨pktHdr, mailHdr, (List.range mailHdr.length.toNat).map data⟩

/-- The letter in a packet whose header has been taken off. -/
def Letter.ofPayload (pktHdr : PacketHeader) (payload : ℕ → Byte) : Letter :=
  .of pktHdr (.ofBytes payload) fun k => payload (headerSize + k)

/-- The letter in a packet as it is on the wire. -/
def Letter.ofWire (packet : ℕ → Byte) : Letter :=
  .ofPayload (.ofBytes packet) fun k => packet (headerSize + k)

/-- `Mail` of `post.h`. -/
structure Mail where
  pktHdr : PacketHeader
  mailHdr : MailHeader
  /-- The array has `MaxMailSize` cells. -/
  data : ℕ → Byte

def Mail.letter (m : Mail) : Letter := .of m.pktHdr m.mailHdr m.data

/-! ## Packing and unpacking -/

theorem threeWords_bytes (w₀ w₁ w₂ : BitVec 32) {b : ℕ → Byte}
    (h : ∀ k < headerSize, b k = bytesOf (threeWords w₀ w₁ w₂) k) :
    wordAt b 0 = w₀ ∧ wordAt b 4 = w₁ ∧ wordAt b 8 = w₂ := by
  have hword : ∀ i < 3, wordAt b (4 * i) = threeWords w₀ w₁ w₂ i := by
    intro i hi
    rw [← wordAt_bytesOf (threeWords w₀ w₁ w₂) i]
    refine wordAt_congr fun j hj => h _ ?_
    rw [headerSize]
    omega
  exact ⟨hword 0 (by decide), hword 1 (by decide), hword 2 (by decide)⟩

theorem PacketHeader.ofBytes_eq {h : PacketHeader} {b : ℕ → Byte}
    (hb : ∀ k < headerSize, b k = h.toBytes k) : ofBytes b = h := by
  obtain ⟨h₀, h₁, h₂⟩ := threeWords_bytes _ _ _ hb
  rw [ofBytes, h₀, h₁, h₂]

theorem MailHeader.ofBytes_eq {h : MailHeader} {b : ℕ → Byte}
    (hb : ∀ k < headerSize, b k = h.toBytes k) : ofBytes b = h := by
  obtain ⟨h₀, h₁, h₂⟩ := threeWords_bytes _ _ _ hb
  rw [ofBytes, h₀, h₁, h₂]

theorem MailHeader.ofBytes_congr {b b' : ℕ → Byte} (hb : ∀ k < headerSize, b k = b' k) :
    ofBytes b = ofBytes b' := by
  have hword : ∀ i ≤ 8, wordAt b i = wordAt b' i := by
    intro i hi
    refine wordAt_congr fun j hj => hb _ ?_
    rw [headerSize]
    omega
  rw [ofBytes, ofBytes, hword 0 (by decide), hword 4 (by decide), hword 8 (by decide)]

theorem concat_header {raw header data : ℕ → Byte} {length k : ℕ} (hk : k < headerSize) :
    concat raw header length data k = header k := by
  rw [concat, splice_of_lt hk, splice_front hk]

theorem concat_data {raw header data : ℕ → Byte} {length k : ℕ} (hk : k < length) :
    concat raw header length data (headerSize + k) = data k := splice_add hk

theorem Letter.of_congr {pktHdr : PacketHeader} {mailHdr : MailHeader} {data data' : ℕ → Byte}
    (h : ∀ k < mailHdr.length.toNat, data k = data' k) :
    of pktHdr mailHdr data = of pktHdr mailHdr data' := by
  unfold of
  rw [List.map_congr_left fun k hk => h k (List.mem_range.1 hk)]

/-- The payload counts only up to the end of the mail. -/
theorem Letter.ofPayload_congr {pktHdr : PacketHeader} {b b' : ℕ → Byte} {size : ℕ}
    (hsize : headerSize + (MailHeader.ofBytes b).length.toNat ≤ size)
    (h : ∀ k < size, b' k = b k) : ofPayload pktHdr b' = ofPayload pktHdr b := by
  have hhdr : MailHeader.ofBytes b' = MailHeader.ofBytes b :=
    MailHeader.ofBytes_congr fun k hk => h k (by omega)
  unfold ofPayload
  rw [hhdr]
  exact of_congr fun k hk => h _ (by omega)

/-- What `PostOffice::Send` puts into its buffer. -/
theorem Letter.ofPayload_concat (pktHdr : PacketHeader) (mailHdr : MailHeader)
    (raw data : ℕ → Byte) :
    ofPayload pktHdr (concat raw mailHdr.toBytes mailHdr.length.toNat data) =
      of pktHdr mailHdr data := by
  have hhdr : MailHeader.ofBytes (concat raw mailHdr.toBytes mailHdr.length.toNat data) = mailHdr :=
    MailHeader.ofBytes_eq fun k hk => concat_header hk
  unfold ofPayload
  rw [hhdr]
  exact of_congr fun k hk => concat_data hk

/-- What `Network::Send` puts on the wire. -/
theorem Letter.ofWire_concat (pktHdr : PacketHeader) (raw payload : ℕ → Byte)
    (hsize : headerSize + (MailHeader.ofBytes payload).length.toNat ≤ pktHdr.length.toNat) :
    ofWire (concat raw pktHdr.toBytes pktHdr.length.toNat payload) = ofPayload pktHdr payload := by
  have hhdr :
      PacketHeader.ofBytes (concat raw pktHdr.toBytes pktHdr.length.toNat payload) = pktHdr :=
    PacketHeader.ofBytes_eq fun k hk => concat_header hk
  unfold ofWire
  rw [hhdr]
  exact ofPayload_congr hsize fun k hk => concat_data hk

end Network

end Nachos
