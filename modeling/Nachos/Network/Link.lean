import Nachos.Network.Delivery
import Mathlib.Data.List.FinRange

/-!
# Machines on a network

Several machines, each with its own threads and its post office, and the sockets between them: a
datagram that a machine passes to `SendToSocket` is appended to those in front of the socket of the
machine with the address, and `CheckPktAvail` takes the first one. In every step one of the
machines makes a step, so that the machines run at any speed against each other.
-/

namespace Nachos

open Lib

namespace Network

/-- The machines: their addresses are different, and their post offices have the same number of
boxes. -/
structure Sites (n : ℕ) where
  addr : Fin n → BitVec 32
  numBoxes : ℕ
  injective : Function.Injective addr

def Sites.site {n : ℕ} (S : Sites n) (i : Fin n) : Site := ⟨S.addr i, S.numBoxes⟩

/-- What is in the memory of a machine at first: the members that the constructors do not set, and
the values of the other semaphores. -/
structure Boot where
  inHdr : PacketHeader
  inbox : ℕ → Byte
  buffer : ℕ → Byte
  values : ℕ → ℤ

def Boot.data (b : Boot) : Data := .new b.inHdr b.inbox b.buffer

def Boot.initialValue (b : Boot) (s : ℕ) : ℤ := if s < 2 then 0 else b.values s

structure Net (n : ℕ) where
  machine : Fin n → Kernel Pc Data
  /-- The datagrams in front of the sockets. -/
  sock : Fin n → List (ℕ → Byte)

/-- `SendToSocket`, with the datagrams in front of the sockets. -/
def Sites.sendToSocket {n : ℕ} (S : Sites n) (sock : Fin n → List (ℕ → Byte))
    (datagram : BitVec 32 × (ℕ → Byte)) : Except Stop (Fin n → List (ℕ → Byte)) :=
  match (List.finRange n).find? fun j => S.addr j = datagram.1 with
  | none => .error .assertion
  | some j => .ok (Function.update sock j (sock j ++ [datagram.2]))

def Sites.sendAll {n : ℕ} (S : Sites n) :
    List (BitVec 32 × (ℕ → Byte)) → (Fin n → List (ℕ → Byte)) →
      Except Stop (Fin n → List (ℕ → Byte))
  | [], sock => .ok sock
  | datagram :: datagrams, sock =>
      match S.sendToSocket sock datagram with
      | .error e => .error e
      | .ok sock => S.sendAll datagrams sock

namespace Net

variable {n : ℕ}

def init (boot : Fin n → Boot) : Net n where
  machine i := .init .boot (boot i).data (boot i).initialValue
  sock _ := []

/-- `CheckPktAvail` finds what is in front of the socket. -/
def polls (net : Net n) (i : Fin n) : Label Act → Label Act
  | .interrupt (.checkPktAvail _) => .interrupt (.checkPktAvail (net.sock i).head?)
  | lab => lab

/-- A step of the machine `i`. -/
def step (S : Sites n) (net : Net n) (lab : Fin n × Label Act) : Except Stop (Net n) :=
  let i := lab.1
  match Kernel.step (client (S.site i)) (net.machine i) (net.polls i lab.2) with
  | .error e => .error e
  | .ok k =>
      let taken := k.data.read.length - (net.machine i).data.read.length
      let sent := k.data.wire.drop (net.machine i).data.wire.length
      match S.sendAll sent (Function.update net.sock i ((net.sock i).drop taken)) with
      | .error e => .error e
      | .ok sock => .ok ⟨Function.update net.machine i k, sock⟩

end Net

/-! ## What one machine sees of the sockets -/

section

variable {site : Site} {k k' : Kernel Pc Data} {lab : Label Act} {data : Data}
  {initialValue : ℕ → ℤ} {t : Tid} {pc pc' : Pc} {d d' : Data} {a : Act} {o : Call Pc}

theorem Outside.wire (h : Outside site t d o pc' d') : d'.wire = d.wire := by
  cases h <;> rfl

/-- A thread passes at most one datagram to its socket. -/
theorem Moves.wire (h : Moves site t pc d o pc' d') :
    d'.wire = d.wire ∨ ∃ x, d'.wire = d.wire ++ [x] := by
  cases h with
  | out _ h => exact .inl h.wire
  | hands _ box mail h => exact .inl h.wire
  | posts _ pktHdr mailHdr data buffer sendInts wire h =>
      rcases h with rfl | ⟨raw, rfl⟩
      · exact .inl rfl
      · exact .inr ⟨_, rfl⟩
  | _ => exact .inl rfl

/-- A handler takes at most one datagram from its socket. -/
theorem interrupt_wire {sems : List ℕ} (h : interrupt site d a = .ok (sems, d')) :
    d'.wire = d.wire ∧ (d'.read = d.read ∨
      ∃ packet, a = .checkPktAvail (some packet) ∧ d'.read = d.read ++ [packet]) := by
  cases a with
  | checkPktAvail datagram =>
      simp only [interrupt, Data.checkPktAvail] at h
      split at h
      · cases h
        exact ⟨rfl, .inl rfl⟩
      · cases datagram with
        | none =>
            cases h
            exact ⟨rfl, .inl rfl⟩
        | some packet =>
            simp only [check_ok] at h
            obtain ⟨-, h⟩ := h
            cases h
            exact ⟨rfl, .inr ⟨packet, rfl, rfl⟩⟩
  | sendDone =>
      simp only [interrupt, Data.sendDone] at h
      split at h <;> cases h
      exact ⟨rfl, .inl rfl⟩
  | handle sems' =>
      simp only [interrupt] at h
      split at h <;> cases h
      exact ⟨rfl, .inl rfl⟩
  | _ => cases h

/-- What a step of a machine does to the sockets. -/
theorem step_sockets (hr : Kernel.Runs (client site) .boot data initialValue k)
    (hs : Kernel.step (client site) k lab = .ok k') :
    (k'.data.read = k.data.read ∨ ∃ packet, lab = .interrupt (.checkPktAvail (some packet)) ∧
      k'.data.read = k.data.read ++ [packet]) ∧
      (k'.data.wire = k.data.wire ∨ ∃ x, k'.data.wire = k.data.wire ++ [x]) := by
  rcases hr.step_calls hs messageAvailable with
    ⟨a, o, pc, rfl, -, hnext, -, -⟩ | ⟨a, sems, rfl, hhandler, -, -⟩ | ⟨hq, -⟩
  · have hmove := code_moves (ok_of_toOption hnext)
    exact ⟨.inl hmove.counts.2.1, hmove.wire⟩
  · obtain ⟨hwire, hread⟩ := interrupt_wire (ok_of_toOption hhandler)
    refine ⟨hread.imp_right ?_, .inl hwire⟩
    rintro ⟨packet, rfl, hread'⟩
    exact ⟨packet, rfl, hread'⟩
  · rw [hq.data]
    exact ⟨.inl rfl, .inl rfl⟩

end

/-! ## Invariant -/

section

variable {n : ℕ} {S : Sites n} {boot : Fin n → Boot} {net net' : Net n}

/-- The packet comes from the machine `i`. -/
def Sites.isFrom (S : Sites n) (i : Fin n) (l : Letter) : Bool := l.pktHdr.fromMachine = S.addr i

/-- The datagrams that have come to the machine. -/
def Net.arrived (net : Net n) (i : Fin n) : List (ℕ → Byte) :=
  (net.machine i).data.read ++ net.sock i

/-- What is true of the machines and their sockets in every state: the datagrams of a machine come
to another one in the order in which they have been sent. -/
structure Linked (S : Sites n) (boot : Fin n → Boot) (net : Net n) : Prop where
  runs : ∀ i, Kernel.Runs (client (S.site i)) .boot (boot i).data (boot i).initialValue
    (net.machine i)
  sound : ∀ i, Sound (S.site i) (net.machine i)
  waiting : ∀ i, ∀ p ∈ net.sock i, (S.site i).Accepts (.ofWire p)
  senders : ∀ i, ∀ p ∈ net.arrived i, ∃ j, S.isFrom j (.ofWire p) = true
  link : ∀ i j, ((net.arrived j).filter fun p => S.isFrom i (.ofWire p)) =
    valuesAt (S.addr j) (net.machine i).data.wire

theorem Linked.init (S : Sites n) (boot : Fin n → Boot) : Linked S boot (Net.init boot) where
  runs i := Reachable.refl _ _
  sound i := Sound.init (S.site i) (boot i).inHdr (boot i).inbox (boot i).buffer _
  waiting i p hp := by cases hp
  senders i p hp := by cases hp
  link i j := rfl

theorem sendToSocket_ok {sock sock' : Fin n → List (ℕ → Byte)} {x : BitVec 32 × (ℕ → Byte)}
    (h : S.sendToSocket sock x = .ok sock') :
    ∃ j, S.addr j = x.1 ∧ sock' = Function.update sock j (sock j ++ [x.2]) := by
  unfold Sites.sendToSocket at h
  split at h
  · cases h
  · rename_i j hj
    cases h
    exact ⟨j, by simpa using List.find?_some hj, rfl⟩

theorem sendAll_nil {sock sock' : Fin n → List (ℕ → Byte)} (h : S.sendAll [] sock = .ok sock') :
    sock' = sock := by
  cases h
  rfl

theorem sendAll_singleton {sock sock' : Fin n → List (ℕ → Byte)} {x : BitVec 32 × (ℕ → Byte)}
    (h : S.sendAll [x] sock = .ok sock') :
    ∃ j, S.addr j = x.1 ∧ sock' = Function.update sock j (sock j ++ [x.2]) := by
  unfold Sites.sendAll at h
  split at h
  · cases h
  · rename_i sock₁ hsock₁
    cases h
    exact sendToSocket_ok hsock₁

/-- What `CheckPktAvail` reads has been in front of the socket. -/
theorem polls_front {i : Fin n} {lab : Label Act} {packet : ℕ → Byte}
    (h : net.polls i lab = .interrupt (.checkPktAvail (some packet))) :
    ∃ rest, net.sock i = packet :: rest := by
  cases lab with
  | interrupt a =>
      cases a with
      | checkPktAvail datagram =>
          simp only [Net.polls, Label.interrupt.injEq, Act.checkPktAvail.injEq] at h
          cases hsock : net.sock i with
          | nil => simp [hsock] at h
          | cons p rest =>
              simp only [hsock, List.head?_cons, Option.some.injEq] at h
              exact ⟨rest, by rw [h]⟩
      | _ => simp [Net.polls] at h
  | _ => simp [Net.polls] at h

/-- A step is a step of one machine, after which at most one datagram has been sent. -/
theorem step_arrived {i : Fin n} {lab : Label Act}
    (hr : ∀ i, Kernel.Runs (client (S.site i)) .boot (boot i).data (boot i).initialValue
      (net.machine i))
    (h : net.step S (i, lab) = .ok net') :
    ∃ k, Kernel.step (client (S.site i)) (net.machine i) (net.polls i lab) = .ok k ∧
      net'.machine = Function.update net.machine i k ∧
      ((k.data.wire = (net.machine i).data.wire ∧
        ∀ j, net'.arrived j = net.arrived j ∧ ∀ q ∈ net'.sock j, q ∈ net.sock j) ∨
        ∃ j₀ p, k.data.wire = (net.machine i).data.wire ++ [(S.addr j₀, p)] ∧
          ∀ j, net'.arrived j = net.arrived j ++ (if j = j₀ then [p] else []) ∧
            ∀ q ∈ net'.sock j, q ∈ net.sock j ∨ j = j₀ ∧ q = p) := by
  simp only [Net.step] at h
  split at h
  · cases h
  rename_i k hk
  split at h
  · cases h
  rename_i sock hsock
  cases h
  obtain ⟨hread, hwire⟩ := step_sockets (hr i) hk
  generalize hsock₁ : Function.update net.sock i ((net.sock i).drop
    (k.data.read.length - (net.machine i).data.read.length)) = sock₁ at hsock
  -- the datagram that has been read was in front of the socket
  have hkeep : ∀ j, (Function.update net.machine i k j).data.read ++ sock₁ j = net.arrived j ∧
      ∀ q ∈ sock₁ j, q ∈ net.sock j := by
    intro j
    rw [← hsock₁]
    by_cases hj : j = i
    · subst hj
      rw [Function.update_self, Function.update_self, Net.arrived]
      refine ⟨?_, fun q hq => List.mem_of_mem_drop hq⟩
      rcases hread with hread | ⟨packet, hlab, hread⟩
      · simp [hread]
      · obtain ⟨rest, hrest⟩ := polls_front hlab
        simp [hread, hrest]
    · rw [Function.update_of_ne hj, Function.update_of_ne hj]
      exact ⟨rfl, fun q hq => hq⟩
  refine ⟨k, hk, rfl, ?_⟩
  rcases hwire with hwire | ⟨x, hwire⟩
  · rw [hwire, List.drop_length] at hsock
    rw [sendAll_nil hsock]
    exact .inl ⟨hwire, hkeep⟩
  · rw [hwire, List.drop_left] at hsock
    obtain ⟨j₀, haddr, rfl⟩ := sendAll_singleton hsock
    refine .inr ⟨j₀, x.2, by rw [hwire, haddr], fun j => ?_⟩
    obtain ⟨harrived, hmem⟩ := hkeep j
    simp only [Net.arrived] at harrived ⊢
    by_cases hj : j = j₀
    · subst hj
      rw [Function.update_self, if_pos rfl, ← harrived, List.append_assoc]
      refine ⟨rfl, fun q hq => ?_⟩
      rcases List.mem_append.1 hq with hq | hq
      · exact .inl (hmem q hq)
      · exact .inr ⟨rfl, List.mem_singleton.1 hq⟩
    · rw [Function.update_of_ne hj, if_neg hj, List.append_nil]
      exact ⟨harrived, fun q hq => .inl (hmem q hq)⟩

/-- A datagram is a letter of the machine that sends it. -/
theorem Sorted.datagram {site : Site} {pc : Tid → Pc} {d : Data} (h : Sorted site pc d)
    {x : BitVec 32 × (ℕ → Byte)} (hx : x ∈ d.wire) :
    site.Sends (.ofWire x.2) ∧ (Letter.ofWire x.2).pktHdr.toMachine = x.1 := by
  have hmem : (x.1, Letter.ofWire x.2) ∈ d.sent.map fun y => (y.2.pktHdr.toMachine, y.2) :=
    h.wire.subset (List.mem_map.2 ⟨x, hx, rfl⟩)
  obtain ⟨y, hy, heq⟩ := List.mem_map.1 hmem
  simp only [Prod.mk.injEq] at heq
  rw [← heq.2]
  exact ⟨h.outgoing y hy, heq.1⟩

theorem Linked.step {i : Fin n} {lab : Label Act} (h : Linked S boot net)
    (hs : net.step S (i, lab) = .ok net') : Linked S boot net' := by
  obtain ⟨k, hk, hmachine, hsent⟩ := step_arrived h.runs hs
  have hsound : Sound (S.site i) k := by
    refine (h.sound i).step (h.runs i) rfl (fun packet hlab => ?_) hk
    obtain ⟨rest, hrest⟩ := polls_front hlab
    exact h.waiting i packet (by simp [hrest])
  have hruns : ∀ j, Kernel.Runs (client (S.site j)) .boot (boot j).data (boot j).initialValue
      (net'.machine j) := by
    intro j
    rw [hmachine]
    by_cases hj : j = i
    · subst hj
      rw [Function.update_self]
      exact (h.runs j).tail hk
    · rw [Function.update_of_ne hj]
      exact h.runs j
  have hsounds : ∀ j, Sound (S.site j) (net'.machine j) := by
    intro j
    rw [hmachine]
    by_cases hj : j = i
    · subst hj
      rw [Function.update_self]
      exact hsound
    · rw [Function.update_of_ne hj]
      exact h.sound j
  have hother : ∀ i', i' ≠ i → (net'.machine i').data.wire = (net.machine i').data.wire := by
    intro i' hi'
    rw [hmachine, Function.update_of_ne hi']
  have hself : (net'.machine i).data.wire = k.data.wire := by
    rw [hmachine, Function.update_self]
  rcases hsent with ⟨hwire, harrived⟩ | ⟨j₀, p, hwire, harrived⟩
  · refine ⟨hruns, hsounds, ?_, ?_, ?_⟩
    · exact fun j q hq => h.waiting j q ((harrived j).2 q hq)
    · exact fun j q hq => h.senders j q ((harrived j).1 ▸ hq)
    · intro i' j
      rw [(harrived j).1, h.link i' j]
      by_cases hi' : i' = i
      · rw [hi', hself, hwire]
      · rw [hother i' hi']
  · obtain ⟨hsends, hto⟩ := hsound.sorted.datagram (x := (S.addr j₀, p)) (by rw [hwire]; simp)
    have hfrom : S.isFrom i (.ofWire p) = true := decide_eq_true hsends.1
    have hnot : ∀ i', i' ≠ i → S.isFrom i' (.ofWire p) = false := by
      intro i' hi'
      refine decide_eq_false fun heq => hi' (S.injective ?_)
      exact heq.symm.trans hsends.1
    refine ⟨hruns, hsounds, ?_, ?_, ?_⟩
    · intro j q hq
      rcases (harrived j).2 q hq with hq | ⟨rfl, rfl⟩
      · exact h.waiting j q hq
      · exact ⟨hto, hsends.2.length, hsends.2.pktLength, hsends.2.box⟩
    · intro j q hq
      rw [(harrived j).1] at hq
      rcases List.mem_append.1 hq with hq | hq
      · exact h.senders j q hq
      · split at hq
        · rw [List.mem_singleton.1 hq]
          exact ⟨i, hfrom⟩
        · cases hq
    · intro i' j
      rw [(harrived j).1, List.filter_append, h.link i' j]
      by_cases hi' : i' = i
      · subst hi'
        rw [hself, hwire]
        by_cases hj : j = j₀
        · subst hj
          simp [hfrom]
        · rw [if_neg hj, List.filter_nil, List.append_nil,
            valuesAt_append_of_ne fun heq => hj (S.injective heq)]
      · rw [hother i' hi']
        split
        · simp [hnot i' hi']
        · simp

theorem Linked.of_reachable (h : Reachable (Net.step S) (Net.init boot) net) : Linked S boot net :=
  Reachable.invariant (I := Linked S boot) (.init S boot) (fun _ _ _ _ hi hs => hi.step hs) h

end

end Network

end Nachos
