import Nachos.Network.Link

/-!
# Mail comes in order

What `Receive` hands out of a box, as far as it comes from one machine, is a part of what this
machine has sent to the box, in the order of the calls of `Network::Send`. These are made under
`sendLock`, and every thread makes them in the order of its calls of `PostOffice::Send`. The
`ASSERT`s can fail only for the arguments of a call.
-/

namespace Nachos

open Lib

namespace Network

/-! ## One machine -/

section

variable {site : Site} {pc : Tid → Pc} {d : Data} {t : Tid} {a : Act} {which : Assert}

/-- The letters that have been taken from a box. -/
def Data.taken (d : Data) (b : ℕ) : List Letter := valuesAt b (d.removed.map Prod.snd)

/-- What has been taken from a box has been read from the socket, in this order. -/
theorem Sorted.taken_sublist (h : Sorted site pc d) (b : ℕ) :
    (d.taken b).Sublist ((d.read.map Letter.ofWire).filter fun l => l.box = b) := by
  rw [h.received, List.filter_append, h.boxes b, List.append_assoc, List.append_assoc]
  exact List.sublist_append_left _ _

/-- What has gone to an address has been sent to it, in this order. -/
theorem Sorted.wire_sublist (h : Sorted site pc d) (addr : BitVec 32) :
    ((valuesAt addr d.wire).map Letter.ofWire).Sublist
      ((d.sent.map Prod.snd).filter fun l => l.pktHdr.toMachine = addr) := by
  have hfilter := ((h.wire.filter fun x => x.1 = addr).map Prod.snd)
  rw [List.filter_map, List.filter_map, List.map_map, List.map_map] at hfilter
  unfold valuesAt
  rw [List.map_map, List.filter_map]
  exact hfilter

/-- A mail in the hands of `Get` has been sent to the machine. -/
theorem Sorted.accepts_getting (h : Sorted site pc d) {box : ℕ} {mail : Mail}
    (hpc : pc t = .getting box mail) : site.Accepts mail.letter := by
  have hgets := h.gets t
  rw [hpc] at hgets
  have hremoved : (t, box, mail.letter) ∈ d.removed :=
    mem_of_mem_valuesAt (by rw [hgets]; simp [Pc.incoming])
  have htaken : mail.letter ∈ d.taken box := by
    simp only [Data.taken, valuesAt, List.mem_map, List.mem_filter, decide_eq_true_eq]
    exact ⟨(box, mail.letter), ⟨⟨_, hremoved, rfl⟩, rfl⟩, rfl⟩
  have hread := List.mem_of_mem_filter ((h.taken_sublist box).subset htaken)
  obtain ⟨p, hp, heq⟩ := List.mem_map.1 hread
  rw [← heq]
  exact h.accepted p hp

theorem count_valuesAt {κ β : Type} [DecidableEq κ] {b : BEq β} [LawfulBEq β] {b' : BEq (κ × β)}
    [LawfulBEq (κ × β)] (i : κ) (x : β) (xs : List (κ × β)) :
    (valuesAt i xs).count x = xs.count (i, x) := by
  unfold valuesAt
  rw [List.count_eq_countP, List.countP_map, List.countP_filter, List.count_eq_countP]
  refine List.countP_congr fun y _ => ?_
  simp [Prod.ext_iff, and_comm]

/-- What `Receive` returns has been taken from a box, each time for one call. -/
theorem Sorted.handed_subperm (h : Sorted site pc d) : d.handed.Subperm d.removed := by
  refine List.subperm_ext_iff.2 fun x _ => ?_
  obtain ⟨t, y⟩ := x
  rw [← count_valuesAt t y d.handed, ← count_valuesAt t y d.removed, h.gets t, List.count_append]
  exact Nat.le_add_right _ _

theorem check_assertion {S : Type} {which' : Assert} {p : Prop} [Decidable p]
    {x : Except Failure S} :
    check which' p x = .error (.assertion which) ↔
      ¬ p ∧ which' = which ∨ p ∧ x = .error (.assertion which) := by
  by_cases h : p <;> simp [check, h]

/-- The call has an argument that `PostOffice` does not allow. -/
def Act.Refused (site : Site) : Act → Assert → Prop
  | .send _ mailHdr _ _, .sendLength => MaxMailSize < mailHdr.length.toNat
  | .send _ mailHdr _ _, .sendBox => ¬ site.HasBox mailHdr.toBox.toInt
  | .receive box, .receiveBox => ¬ site.HasBox box
  | _, _ => False

theorem outside_assertion (h : d.outside site t a = .error (.assertion which)) :
    a.Refused site which := by
  cases a with
  | send pktHdr mailHdr data raw =>
      simp only [Data.outside, Data.send, check_assertion] at h
      rcases h with ⟨hlength, rfl⟩ | ⟨-, ⟨hbox, rfl⟩ | ⟨-, h⟩⟩
      · exact not_le.1 hlength
      · exact hbox
      · cases h
  | receive box =>
      simp only [Data.outside, Data.receive, check_assertion] at h
      rcases h with ⟨hbox, rfl⟩ | ⟨-, h⟩
      · exact hbox
      · cases h
  | other o =>
      simp only [Data.outside] at h
      split at h <;> cases h
  | _ => cases h

/-- The postal worker finds a legal message. -/
theorem Sorted.put_no_assertion (h : Sorted site pc d) (hfull : d.inHdr.length ≠ 0)
    (raw : ℕ → Byte) : d.deliver site raw ≠ .error (.assertion which) := by
  have haccept := h.accepts_pending hfull
  rw [← h.mail_letter hfull raw] at haccept
  have hlength : (MailHeader.ofBytes d.networkReceive.2.buffer).length.toNat ≤ MaxMailSize :=
    haccept.2.length
  have hbox : site.HasBox (MailHeader.ofBytes d.networkReceive.2.buffer).toBox.toInt :=
    haccept.2.box
  simp only [Data.deliver, Data.put, ne_eq, check_assertion, hlength, hbox]
  simp

/-- An `ASSERT` in the code of a thread fails only for the arguments of a call. -/
theorem Sorted.assertion (h : Sorted site pc d)
    (hfull : (pc t).fetches = true → d.inHdr.length ≠ 0)
    (hcode : code site t (pc t) d a = .error (.assertion which)) : a.Refused site which := by
  have hprepared := h.prepared t
  cases hpc : pc t with
  | out =>
      rw [hpc] at hcode
      exact outside_assertion hcode
  | getting box mail =>
      have haccept := h.accepts_getting hpc
      rw [hpc] at hcode
      simp only [code, check_assertion] at hcode
      rcases hcode with ⟨hlength, -⟩ | ⟨-, hcode⟩
      · exact absurd haccept.2.length hlength
      · exact outside_assertion hcode
  | sending pktHdr mailHdr data buffer =>
      rw [hpc] at hcode hprepared
      obtain ⟨⟨hfrom, hletter⟩, -⟩ := hprepared
      cases a with
      | turn dropped raw =>
          simp only [code] at hcode
          split at hcode
          · rename_i e he
            cases hcode
            simp only [Data.networkSend, check_assertion] at he
            rcases he with ⟨hfail, -⟩ | ⟨-, he⟩
            · have hpkt : pktHdr.length.toNat = headerSize + mailHdr.length.toNat :=
                hletter.pktLength
              have hlength : mailHdr.length.toNat ≤ MaxMailSize := hletter.length
              have hsizes : headerSize = 12 ∧ MaxMailSize = 40 ∧ MaxPacketSize = 52 :=
                ⟨rfl, rfl, rfl⟩
              refine absurd ⟨h.idle, ?_, ?_, hfrom⟩ hfail
              · omega
              · omega
            · split at he <;> cases he
          · cases hcode
      | _ => cases hcode
  | fetching =>
      have hfull' := hfull (by rw [hpc]; rfl)
      rw [hpc] at hcode
      cases a with
      | turn dropped raw => exact absurd hcode (h.put_no_assertion hfull' raw)
      | _ => cases hcode
  | _ =>
      rw [hpc] at hcode
      cases a <;> cases hcode

end

/-! ## Several machines -/

variable {n : ℕ}

/-- The letters that `Receive` has taken from a box of a machine. -/
def Net.handedOut (net : Net n) (i : Fin n) (b : ℕ) : List Letter := (net.machine i).data.taken b

/-- The letters that the machine `i` has sent to a box of the machine `j`. -/
def Net.sentTo (S : Sites n) (net : Net n) (i j : Fin n) (b : ℕ) : List Letter :=
  ((net.machine i).data.sent.map Prod.snd).filter fun l => l.pktHdr.toMachine = S.addr j ∧ l.box = b

variable {S : Sites n} {boot : Fin n → Boot} {net : Net n}

theorem Linked.handedOut_sublist (h : Linked S boot net) (i j : Fin n) (b : ℕ) :
    ((net.handedOut j b).filter (S.isFrom i)).Sublist (net.sentTo S i j b) := by
  have hread : (((net.machine j).data.read.map Letter.ofWire).filter (S.isFrom i)).Sublist
      ((valuesAt (S.addr j) (net.machine i).data.wire).map Letter.ofWire) := by
    rw [← h.link i j, Net.arrived, List.filter_append, List.map_append, List.filter_map]
    exact List.sublist_append_left _ _
  have hsent := hread.trans ((h.sound i).sorted.wire_sublist (S.addr j))
  have htaken := ((h.sound j).sorted.taken_sublist b).filter (S.isFrom i)
  rw [List.filter_filter, List.filter_congr fun l _ => Bool.and_comm _ _, ← List.filter_filter]
    at htaken
  refine htaken.trans ((hsent.filter fun l => l.box = b).trans ?_)
  rw [List.filter_filter, Net.sentTo]
  simp [and_comm]

theorem Linked.sender (h : Linked S boot net) {j : Fin n} {b : ℕ} {l : Letter}
    (hl : l ∈ net.handedOut j b) : ∃ i, S.isFrom i l = true := by
  have hread := List.mem_of_mem_filter (((h.sound j).sorted.taken_sublist b).subset hl)
  obtain ⟨p, hp, rfl⟩ := List.mem_map.1 hread
  exact h.senders j p (List.mem_append_left _ hp)

/-- `CheckPktAvail` finds a packet for its machine, of a legal length. -/
theorem Linked.checkPktAvail (h : Linked S boot net) (i : Fin n) (which : Assert) :
    (net.machine i).data.checkPktAvail (S.site i) (net.sock i).head? ≠
      .error (.assertion which) := by
  unfold Data.checkPktAvail
  split
  · intro hfail
    cases hfail
  · cases hsock : net.sock i with
    | nil => simp
    | cons p rest =>
        have haccept := h.waiting i p (by simp [hsock])
        have hpkt : (PacketHeader.ofBytes p).length.toNat =
            headerSize + (Letter.ofWire p).mailHdr.length.toNat := haccept.2.pktLength
        have hlength := haccept.2.length
        have hsizes : headerSize = 12 ∧ MaxMailSize = 40 ∧ MaxPacketSize = 52 := ⟨rfl, rfl, rfl⟩
        have hto : (PacketHeader.ofBytes p).toMachine = (S.site i).netAddr := haccept.1
        simp only [List.head?_cons, check]
        rw [if_pos ⟨hto, by omega⟩]
        intro hfail
        cases hfail

/-- For any number of machines and threads, and whatever is dropped: what has been handed out of the
box `b` of the machine `B` and comes from the machine `A` is a part of what `A` has sent to this
box, in the same order and with the same headers and data; everything that has been handed out comes
from one of the machines. Every thread sends in the order of its calls of `Send`, and gets from
`Receive` what it has taken, in this order and no more than once. The `ASSERT`s fail only for an
argument of a call that is not allowed. -/
theorem post_office_in_order (S : Sites n) (boot : Fin n → Boot) (net : Net n)
    (h : Reachable (Net.step S) (Net.init boot) net) :
    (∀ A B b, ((net.handedOut B b).filter (S.isFrom A)).Sublist (net.sentTo S A B b)) ∧
      (∀ B b, ∀ l ∈ net.handedOut B b, ∃ A, S.isFrom A l = true) ∧
      (∀ A, ∀ x ∈ (net.machine A).data.sent,
        S.isFrom A x.2 = true ∧ x.2.mailHdr.length.toNat ≤ MaxMailSize) ∧
      (∀ i t, valuesAt t (net.machine i).data.sent <+: valuesAt t (net.machine i).data.passed ∧
        valuesAt t (net.machine i).data.handed <+: valuesAt t (net.machine i).data.removed) ∧
      (∀ i, (net.machine i).data.handed.Subperm (net.machine i).data.removed) ∧
      ∀ i which, (net.machine i).data.checkPktAvail (S.site i) (net.sock i).head? ≠
          .error (.assertion which) ∧
        ∀ a, (net.machine i).stack (net.machine i).currentThread = [] →
          code (S.site i) (net.machine i).currentThread
            ((net.machine i).pc (net.machine i).currentThread) (net.machine i).data a =
              .error (.assertion which) → a.Refused (S.site i) which := by
  have hl := Linked.of_reachable h
  refine ⟨hl.handedOut_sublist, fun B b l hmem => hl.sender hmem, ?_, ?_, ?_, ?_⟩
  · intro A x hx
    have hsends := (hl.sound A).sorted.outgoing x hx
    exact ⟨decide_eq_true hsends.1, hsends.2.length⟩
  · intro i t
    have hsorted := (hl.sound i).sorted
    exact ⟨⟨_, (hsorted.sends t).symm⟩, ⟨_, (hsorted.gets t).symm⟩⟩
  · exact fun i => (hl.sound i).sorted.handed_subperm
  · intro i which
    refine ⟨hl.checkPktAvail i which, fun a hstack hcode => ?_⟩
    exact (hl.sound i).sorted.assertion ((hl.sound i).fetch_full (hl.runs i) rfl hstack) hcode

/-- The machines 0 and 1. -/
def twoSites : Sites 2 where
  addr i := BitVec.ofNat 32 i
  numBoxes := 10
  injective := by decide

def blank : Boot := ⟨⟨0, 0, 0⟩, fun _ => 0, fun _ => 0, fun _ => 0⟩

/-- The machine 0 sends the two bytes `AB`, and the machine 1 waits for them in `Receive` before
they arrive. -/
def helloRun : List (Fin 2 × Label Act) :=
  let turn : Label Act := .act (.turn false fun _ => 7)
  let send : Label Act := .act (.send ⟨1, 5, 5⟩ ⟨0, 3, 2⟩ (fun k => BitVec.ofNat 8 (65 + k))
    fun _ => 7)
  let go (i : Fin 2) (m : ℕ) : List (Fin 2 × Label Act) := List.replicate m (i, .go)
  (0, turn) :: go 0 3 ++ (0, send) :: go 0 4 ++ (0, turn) ::
    (1, turn) :: go 1 3 ++ (1, .act (.receive 0)) :: go 1 4 ++ (1, turn) :: go 1 7 ++ (1, turn) ::
      (1, .interrupt (.checkPktAvail none)) :: go 1 6 ++ (1, turn) :: go 1 4 ++
        (1, turn) :: (1, turn) :: go 1 3 ++ (1, turn) :: go 1 12 ++ (1, turn) :: go 1 3

/-- The letter of the machine 0. -/
def hello : Letter := ⟨⟨1, 0, 14⟩, ⟨0, 3, 2⟩, [65, 66]⟩

theorem post_office_in_order_hello :
    ∃ net, Reachable (Net.step twoSites) (Net.init fun _ => blank) net ∧
      net.handedOut 1 0 = [hello] ∧ hello ∈ net.sentTo twoSites 0 1 0 := by
  have hpass : passes (Net.step twoSites) (Net.init fun _ => blank) helloRun
      (fun net => net.handedOut 1 0 = [hello]) = true := by
    decide +kernel
  obtain ⟨net, hnet, hout⟩ := exists_of_passes _ hpass
  rw [decide_eq_true_eq] at hout
  refine ⟨net, hnet, hout, ?_⟩
  have horder := (post_office_in_order twoSites (fun _ => blank) net hnet).1 0 1 0
  rw [hout] at horder
  exact horder.subset (by decide)

end Network

end Nachos
