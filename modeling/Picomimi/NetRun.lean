import Mathlib.Order.WellFounded
import Picomimi.NetPayload
/-!
# NetRun — segments and calls, on the socket table the source has

`tcp_receive` acts on the socket `inet_lookup` finds in `sock_table`.  `net_init` clears the table and nothing calls
`sock_table_insert`, so a segment changes no socket, whatever state it is in (`tcpReceive_cleared`).  What must hold of a
connection holds in every run for that reason: its ring has a prefix of what the peer sends (`received_in_order`), nothing is
acknowledged that was not stored (`acksStored_run`), no ACK moves a closing connection on (`ackCovers_run`).  And what a frame
brings for a bound socket does not come to it (`payloadLaw_iff`).
-/
namespace Pico
namespace NetCore

open Lib Net

/-- `sock_table` as `net_init` leaves it; the sockets may be in any state. -/
def Stack.Cleared (s : Stack) : Prop := s.sockets.table = fun _ => none

/-- A packet for `tcp_receive`, or a call of the owner of some socket.  A `tcp_close` that waits is two steps. -/
inductive NetLabel where
  | segment (skb : Skb) (env : Env)
  | call (c : Ports.Label)
  | recv (i len : Nat) (peek : Bool)
  | close (i : Nat)
  | closeDone (i : Nat)

def IsCall : Ports.Label → Prop
  | .segment _ _ _ | .queued _ _ _ _ => False
  | _ => True

instance : ∀ c, Decidable (IsCall c)
  | .segment _ _ _ | .queued _ _ _ _ => inferInstanceAs (Decidable False)
  | .socket _ _ _ _ | .bind _ _ _ | .connect _ _ _ _ _ _ | .sendto _ | .listen _ _ | .accept _ _ | .shutdown _ | .close _ =>
    inferInstanceAs (Decidable True)

/-- Something done to the socket. -/
def Stack.onSock (s : Stack) (i : Nat) (f : Sock → Sock) : Option Stack :=
  (s.sock i).map fun k => s.setSock i { k with sk := f k.sk }

def stackStep (devs : List NetDevice) (dev : NetDevice) (a : Answers) (s : Stack) : NetLabel → Option Stack
  | .segment skb env => some (tcpReceive devs dev a env skb s)
  | .call c => if IsCall c then (SockTable.step s.sockets c).map fun t => { s with sockets := t } else none
  | .recv i len peek => s.onSock i fun sk => { sk with rcvbuf := (sockRingbufRead sk.rcvbuf len peek).1 }
  | .close i => s.onSock i fun sk => (tcpClose sk).1
  | .closeDone i => s.onSock i tcpCloseDone

def netMachine (devs : List NetDevice) (dev : NetDevice) (a : Answers) : Machine Stack NetLabel where
  init := Stack.Cleared
  step := stackStep devs dev a

section Runs

variable {devs : List NetDevice} {dev : NetDevice} {a : Answers} {env : Env} {skb : Skb} {s t : Stack} {i : Nat}

theorem lookup_cleared (h : s.Cleared) (q : SockTable.Query) : SockTable.inetLookup s.sockets q = none :=
  SockTable.inetLookup_empty h q

/-- **A segment changes no socket.** -/
theorem tcpReceive_cleared (h : s.Cleared) : tcpReceive devs dev a env skb s = s := by
  rw [tcpReceive_eq, Stack.taken, lookup_cleared h]
  split <;> rfl

theorem Stack.Cleared.onSock (h : s.Cleared) {f : Sock → Sock} (hs : s.onSock i f = some t) : t.Cleared := by
  obtain ⟨k, -, rfl⟩ := Option.map_eq_some_iff.1 hs
  exact h

/-- **No step fills the table.** -/
theorem Stack.Cleared.step (h : s.Cleared) {x : NetLabel} (hs : (netMachine devs dev a).step s x = some t) : t.Cleared := by
  change stackStep devs dev a s x = some t at hs
  cases x with
  | segment skb env =>
    cases hs
    rw [tcpReceive_cleared h]
    exact h
  | call c =>
    simp only [stackStep] at hs
    split at hs
    · obtain ⟨st, hst, rfl⟩ := Option.map_eq_some_iff.1 hs
      obtain ⟨P, -, rfl⟩ := Option.map_eq_some_iff.1 hst
      exact h
    · cases hs
  | recv i len peek =>
    rw [stackStep] at hs
    exact h.onSock hs
  | close i =>
    rw [stackStep] at hs
    exact h.onSock hs
  | closeDone i =>
    rw [stackStep] at hs
    exact h.onSock hs

theorem Stack.Cleared.run (h : s.Cleared) {l : List NetLabel} (hrun : (netMachine devs dev a).run s l = some t) : t.Cleared :=
  (netMachine devs dev a).run_invariant (fun _ _ _ hc hs => hc.step hs) l s t h hrun

end Runs

/-! ## The stream -/

/-- The bytes a step puts in the ring of socket `i`: of those handed over, as many as `sock_ringbuf_write` takes. -/
def put (i : Nat) (s : Stack) : NetLabel → List UInt8
  | .segment skb _ =>
    match s.sock i with
    | none => []
    | some k => ((tcpHands skb s).bytes i).take (sockRingbufWrite k.sk.rcvbuf ((tcpHands skb s).bytes i)).2
  | _ => []

/-- All the bytes put there over a run. -/
def streamOf (devs : List NetDevice) (dev : NetDevice) (a : Answers) (i : Nat) : Stack → List NetLabel → List UInt8
  | _, [] => []
  | s, x :: l =>
    match stackStep devs dev a s x with
    | none => put i s x
    | some t => put i s x ++ streamOf devs dev a i t l

section Stream

variable {devs : List NetDevice} {dev : NetDevice} {a : Answers} {env : Env} {skb : Skb} {s : Stack} {i : Nat}
  {k : Ports.Socket}

/-- **What is put there is what the ring grows by.** -/
theorem ring_put (hk : s.sock i = some k) (hw : k.sk.rcvbuf.Wf) :
    ((tcpReceive devs dev a env skb s).ring i).map SockRingbuf.bytes =
      some (k.sk.rcvbuf.bytes ++ put i s (.segment skb env)) := by
  have hring : s.ring i = some k.sk.rcvbuf := congrArg (Option.map _) hk
  rw [tcpHands_written skb s i, hring, put, hk]
  cases hh : tcpHands skb s with
  | none => simp [Handed.bytes]
  | some x =>
    simp only [Handed.bytes, Option.map_some]
    by_cases hi : x.1 = i
    · simp only [if_pos hi, (sockRingbufWrite_spec hw x.2).2.2.2]
    · simp [if_neg hi]

theorem put_cleared (h : s.Cleared) (x : NetLabel) : put i s x = [] := by
  cases x with
  | segment skb env =>
    have hnone : tcpHands skb s = none := by
      unfold tcpHands
      rw [lookup_cleared h]
      split <;> rfl
    rw [put, hnone]
    cases s.sock i with
    | none => rfl
    | some k => rfl
  | call c => rfl
  | recv j len peek => rfl
  | close j => rfl
  | closeDone j => rfl

theorem streamOf_cleared : ∀ (l : List NetLabel) (s : Stack), s.Cleared → streamOf devs dev a i s l = []
  | [], _, _ => rfl
  | x :: l, s, h => by
    rw [streamOf, put_cleared h]
    cases hs : stackStep devs dev a s x with
    | none => rfl
    | some t => exact streamOf_cleared l t (h.step hs)

/-- **Whatever segments a peer sends, in whatever order**, a ring has been given a prefix of its stream. -/
theorem received_in_order (devs : List NetDevice) (dev : NetDevice) (a : Answers) (stream : List UInt8) (i : Nat)
    (l : List NetLabel) (s : Stack) (h : (netMachine devs dev a).init s) : streamOf devs dev a i s l <+: stream := by
  rw [streamOf_cleared l s h]
  exact List.nil_prefix

end Stream

/-! ## What is acknowledged -/

/-- The segments `tcp_receive` sends for socket `i`. -/
def sentFor (s : Stack) (skb : Skb) (env : Env) (i : Nat) : List Segment :=
  if skb.len < tcpHeaderSize ∨ SockTable.inetLookup s.sockets skb.query ≠ some i then []
  else match s.sock i with
    | none => []
    | some k => (tcpInput k.sk env skb.segment).sent

/-- **A FIN accepted in order**: the connection goes to `TCP_CLOSE_WAIT` on one that stands just behind the last byte stored. -/
def FinInOrder (skb : SkBuff) (k l : Sock) (stored : Nat) : Prop :=
  l.state = .closeWait ∧ add32 skb.seq skb.payload.length = add32 k.rcvNxt stored

instance (skb : SkBuff) (k l : Sock) (stored : Nat) : Decidable (FinInOrder skb k l stored) :=
  inferInstanceAs (Decidable (_ ∧ _))

/-- What a segment should be acknowledged for. -/
def ackable (skb : SkBuff) (k l : Sock) (stored : Nat) : Nat := stored + if FinInOrder skb k l stored then 1 else 0

/-- **An established connection acknowledges what it stored**: `rcv_nxt` and the last ACK sent advance by the bytes in the
ring and the FIN, modulo `2 ^ 32`. -/
def AcksStored (devs : List NetDevice) (dev : NetDevice) (a : Answers) (s : Stack) : NetLabel → Prop
  | .segment skb env => ∀ i k, s.sock i = some k → k.sk.state = .established →
      ∃ l, (tcpReceive devs dev a env skb s).sock i = some l ∧ ∃ n,
        n = ackable skb.segment k.sk l.sk (put i s (.segment skb env)).length ∧
          l.sk.rcvNxt % word32 = add32 k.sk.rcvNxt n ∧ ∀ seg ∈ (sentFor s skb env i).getLast?, seg.ack = add32 k.sk.rcvNxt n
  | _ => True

section Acks

variable {devs : List NetDevice} {dev : NetDevice} {a : Answers} {env : Env} {skb : Skb} {s : Stack} {i : Nat}

theorem sentFor_cleared (h : s.Cleared) : sentFor s skb env i = [] := by
  unfold sentFor
  rw [lookup_cleared h, if_pos (.inr nofun)]

theorem acksStored_cleared (h : s.Cleared) (x : NetLabel) : AcksStored devs dev a s x := by
  cases x with
  | segment skb env =>
    intro i k hk hst
    -- nothing is stored, and the state stays
    have hfin : ¬FinInOrder skb.segment k.sk k.sk 0 := by
      rintro ⟨hclose, -⟩
      rw [hst] at hclose
      cases hclose
    have hnone : ackable skb.segment k.sk k.sk 0 = 0 := by
      unfold ackable
      rw [if_neg hfin]
    refine ⟨k, by rw [tcpReceive_cleared h, hk], 0, ?_, rfl, ?_⟩
    · rw [put_cleared h]
      exact hnone.symm
    · rw [sentFor_cleared h]
      exact nofun
  | call c => trivial
  | recv i len peek => trivial
  | close i => trivial
  | closeDone i => trivial

/-- **No connection acknowledges what it has dropped**, in any run. -/
theorem acksStored_run (devs : List NetDevice) (dev : NetDevice) (a : Answers) (l : List NetLabel) (s s' : Stack)
    (h : (netMachine devs dev a).init s) (hrun : (netMachine devs dev a).run s l = some s') :
    (netMachine devs dev a).RunOk (AcksStored devs dev a) s l s' :=
  (netMachine devs dev a).runOk_of_run (fun _ x hc => acksStored_cleared hc x) (fun _ _ _ hc hs => hc.step hs) l s s' h hrun

end Acks

/-! ## The end of a connection -/

/-- The stack, and the number of the FIN each socket has sent. -/
structure Closing where
  stack : Stack
  fin : Nat → Option Nat

/-- The sequence number of the FIN among what is sent, if there is one. -/
def finSent (old : Option Nat) (sent : List Segment) : Option Nat :=
  match sent.find? (fun seg => seg.flags &&& tcpFin ≠ 0) with
  | some seg => some seg.seq
  | none => old

/-- `tcp_close`, which `sys_shutdown` calls too, numbers a FIN. -/
def finOf (c : Closing) : NetLabel → Nat → Option Nat
  | .close i | .call (.shutdown i) =>
    match c.stack.sock i with
    | none => c.fin
    | some k => Function.update c.fin i (finSent (c.fin i) (tcpClose k.sk).2.1)
  | _ => c.fin

def closingMachine (devs : List NetDevice) (dev : NetDevice) (a : Answers) : Machine Closing NetLabel where
  init c := c.stack.Cleared
  step c x := (stackStep devs dev a c.stack x).map fun t => ⟨t, finOf c x⟩

/-- `ack` is behind the sequence number `fin`, modulo `2 ^ 32`. -/
def Covers (ack fin : Nat) : Prop := sub32 ack (add32 fin 1) < 2147483648

/-- `TCP_FIN_WAIT1` is left for `TCP_FIN_WAIT2` (and at once for `TCP_TIME_WAIT`, if the packet carries a FIN too),
`TCP_CLOSING` for `TCP_TIME_WAIT`, or `TCP_LAST_ACK` for `TCP_CLOSED`. -/
def MovesOn (st st' : TcpState) : Prop :=
  (st = .finWait1 ∧ (st' = .finWait2 ∨ st' = .timeWait)) ∨ (st = .closing ∧ st' = .timeWait) ∨
    (st = .lastAck ∧ st' = .closed)

/-- **A connection moves on only for an ACK that covers its FIN**; a reset is no ACK. -/
def AckCovers (devs : List NetDevice) (dev : NetDevice) (a : Answers) (c : Closing) : NetLabel → Prop
  | .segment skb env => skb.segment.has tcpRst = false → ∀ i k l, c.stack.sock i = some k →
      (tcpReceive devs dev a env skb c.stack).sock i = some l → MovesOn k.sk.state l.sk.state →
        ∃ fin ∈ c.fin i, Covers skb.segment.ack fin
  | _ => True

section Closing

variable {devs : List NetDevice} {dev : NetDevice} {a : Answers} {c : Closing}

theorem not_movesOn (st : TcpState) : ¬MovesOn st st := by
  unfold MovesOn
  cases st <;> decide

theorem ackCovers_cleared (h : c.stack.Cleared) (x : NetLabel) : AckCovers devs dev a c x := by
  cases x with
  | segment skb env =>
    intro _ i k l hk hl hmove
    rw [tcpReceive_cleared h, hk] at hl
    cases hl
    exact absurd hmove (not_movesOn _)
  | call c => trivial
  | recv i len peek => trivial
  | close i => trivial
  | closeDone i => trivial

/-- **No run of packets and closes ends a connection on an ACK that does not cover its FIN.** -/
theorem ackCovers_run (devs : List NetDevice) (dev : NetDevice) (a : Answers) (l : List NetLabel) (c c' : Closing)
    (h : (closingMachine devs dev a).init c) (hrun : (closingMachine devs dev a).run c l = some c') :
    (closingMachine devs dev a).RunOk (AckCovers devs dev a) c l c' := by
  refine (closingMachine devs dev a).runOk_of_run (fun _ x hc => ackCovers_cleared hc x) (fun _ x _ hc hs => ?_) l c c' h hrun
  obtain ⟨t, ht, rfl⟩ := Option.map_eq_some_iff.1 hs
  exact Stack.Cleared.step hc ht

end Closing

/-! ## The payload of a frame -/

/-- What a packet is looked up by. -/
def Packet.query (p : List UInt8) : SockTable.Query :=
  ⟨proto p, (segment p).srcIp, (segment p).srcPort, (segment p).dstIp, (segment p).dstPort⟩

/-- **The socket a packet is for**: the most specific of the live bound sockets that take it, or none if none does. -/
def Dest (s : Stack) (p : List UInt8) : Option Nat → Prop
  | none => ∀ i k, SockTable.Bound s.sockets i k → ¬SockTable.Takes (Packet.query p) k
  | some i => ∃ k, SockTable.Bound s.sockets i k ∧ SockTable.Takes (Packet.query p) k ∧ ∀ j l, SockTable.Bound s.sockets j l →
      SockTable.Takes (Packet.query p) l → SockTable.specificity l.sk ≤ SockTable.specificity k.sk

/-- A socket takes data: over TCP once it is established, and from no reset. -/
def TakesData (s : Stack) (p : List UInt8) (i : Nat) : Prop :=
  Packet.proto p = Ports.ipprotoTcp → Delivers s (Packet.segment p) i

instance (s : Stack) (p : List UInt8) (i : Nat) : Decidable (TakesData s p i) := inferInstanceAs (Decidable (_ → _))

/-- **A frame puts what its headers say into the ring of the socket it is for**, and nothing into any other. -/
def PayloadLaw (s : Stack) (skb : Skb) : Prop := ∃ d, Dest s skb.packet d ∧ ∀ i,
  (ethHands skb s).bytes i = if d = some i ∧ TakesData s skb.packet i then Packet.payload skb.packet else []

/-- **There is nothing to deliver**: by the headers no payload, or no socket that takes it. -/
def NothingFor (s : Stack) (skb : Skb) : Prop :=
  Packet.payload skb.packet = [] ∨ ∃ d, Dest s skb.packet d ∧ ∀ i, d = some i → ¬TakesData s skb.packet i

section Payload

variable {s : Stack} {skb : Skb}

theorem specificity_le (sk : Sock) : SockTable.specificity sk ≤ 3 := by
  unfold SockTable.specificity
  split <;> split <;> decide

/-- Some socket is the most specific, if there is one at all. -/
theorem dest_exists (s : Stack) (p : List UInt8) : ∃ d, Dest s p d := by
  by_cases hnone : Dest s p none
  · exact ⟨none, hnone⟩
  let S : Set (Nat × Ports.Socket) := {x | SockTable.Bound s.sockets x.1 x.2 ∧ SockTable.Takes (Packet.query p) x.2}
  have hne : S.Nonempty := by
    by_contra hS
    exact hnone fun i k hb ht => hS ⟨(i, k), hb, ht⟩
  obtain ⟨x, ⟨hb, ht⟩, hmin⟩ := (measure fun x : Nat × Ports.Socket => 3 - SockTable.specificity x.2.sk).wf.has_min S hne
  refine ⟨some x.1, x.2, hb, ht, fun j l hbl htl => ?_⟩
  have hle : ¬3 - SockTable.specificity l.sk < 3 - SockTable.specificity x.2.sk := hmin (j, l) ⟨hbl, htl⟩
  have := specificity_le l.sk
  omega

theorem ethHands_cleared (h : s.Cleared) (skb : Skb) : ethHands skb s = none := by
  have hudp : ∀ skb, udpHands skb s = none := fun skb => by
    unfold udpHands
    rw [lookup_cleared h]
    exact ite_self _
  have htcp : ∀ skb, tcpHands skb s = none := fun skb => by
    unfold tcpHands
    rw [lookup_cleared h]
    exact ite_self _
  unfold ethHands ipHands
  simp only [hudp, htcp, ite_self]

theorem payloadLaw_cleared (h : s.Cleared) (skb : Skb) : PayloadLaw s skb ↔ NothingFor s skb := by
  unfold PayloadLaw NothingFor
  rw [ethHands_cleared h]
  constructor
  · rintro ⟨d, hd, hall⟩
    by_cases hp : Packet.payload skb.packet = []
    · exact .inl hp
    refine .inr ⟨d, hd, fun i hi htake => hp ?_⟩
    have hgiven := hall i
    rw [if_pos ⟨hi, htake⟩] at hgiven
    exact hgiven.symm
  · rintro (hp | ⟨d, hd, hno⟩)
    · obtain ⟨d, hd⟩ := dest_exists s skb.packet
      refine ⟨d, hd, fun i => ?_⟩
      rw [hp, ite_self]
      rfl
    · refine ⟨d, hd, fun i => ?_⟩
      rw [if_neg fun hi => hno i hi.1 hi.2]
      rfl

/-- **A frame's payload comes to the socket it is for exactly when there is nothing to deliver**, in every state of a run. -/
theorem payloadLaw_iff (devs : List NetDevice) (dev : NetDevice) (a : Answers) (l : List NetLabel) (s s' : Stack)
    (h : (netMachine devs dev a).init s) (hrun : (netMachine devs dev a).run s l = some s') (f : Frame) :
    PayloadLaw s' f.skb ↔ NothingFor s' f.skb := payloadLaw_cleared (Stack.Cleared.run h hrun) f.skb

end Payload

/-! ## A connection, and a bound socket -/

def noAnswers : Answers := ⟨fun _ => none, fun _ => none⟩

def idle : Env := ⟨0, true, none, true⟩

/-- After `net_init`. -/
def bootStack : Stack := ⟨⟨Ports.boot, fun _ => none⟩, bootCache, 0x1234⟩

/-- A connection of port 80 to port 9 of 10.0.0.1, with `sk_snd_nxt` 200 and `sk_rcv_nxt` 1000. -/
def webStack : Stack := bootStack.setSock 0 ⟨.connected, { skAlloc Ports.afInet sockStream Ports.ipprotoTcp (some fun _ => 0) with
  state := .established, connected := true, localPort := 80, remoteIp := 0x0A000001, remotePort := 9
  sndNxt := 200, rcvNxt := 1000, rcvWnd := sockRcvbufSize }, false, []⟩

/-- A segment for it. -/
def webSegment (seq ack flags : Nat) (l : List UInt8) : Skb :=
  { frameOf (tcpHeader 9 80 seq ack flags 0 0 ++ l) with srcIp := 0x0A000001, dstIp := 0x0A000002 }

/-- Byte 3 of 1, 2, 3 first, then all of them. -/
theorem received_in_order_web : streamOf [] quietDevice noAnswers 0 webStack
    [.segment (webSegment 1002 (htonl 200) tcpAck [3]) idle, .segment (webSegment 1000 (htonl 200) tcpAck [1, 2, 3]) idle] <+:
      [1, 2, 3] :=
  received_in_order [] quietDevice noAnswers [1, 2, 3] 0 _ webStack rfl

theorem acksStored_run_web : ∃ s', (netMachine [] quietDevice noAnswers).RunOk (AcksStored [] quietDevice noAnswers) webStack
    [.segment (webSegment 1000 (htonl 200) tcpAck [1, 2, 3]) idle, .recv 0 2 false] s' :=
  ⟨_, acksStored_run [] quietDevice noAnswers _ webStack _ rfl rfl⟩

/-- Its FIN has number 200, and an old ACK arrives. -/
theorem ackCovers_run_web : ∃ c', (closingMachine [] quietDevice noAnswers).RunOk (AckCovers [] quietDevice noAnswers)
    ⟨webStack, fun _ => none⟩ [.close 0, .segment (webSegment 1000 (htonl 100) tcpAck []) idle, .closeDone 0] c' :=
  ⟨_, ackCovers_run [] quietDevice noAnswers _ ⟨webStack, fun _ => none⟩ _ rfl rfl⟩

/-- `socket`, and `bind` to UDP port 7. -/
def bindEcho : List NetLabel := [.call (.socket 0 Ports.sockDgram 0 (some fun _ => 0)), .call (.bind 0 0 7)]

/-- A datagram without payload. -/
def emptyFrame : Frame where
  skb := udpFrame 28 8 53094 []
  small := by decide +kernel
  eth := by decide +kernel
  ethertype := by decide +kernel
  version := by decide +kernel
  ihl := by decide +kernel
  whole := by decide +kernel
  checksum := by decide +kernel

/-- One of one byte, filled up to 60. -/
def byteFrame : Frame where
  skb := udpFrame 29 9 52838 (65 :: List.replicate 17 0)
  small := by decide +kernel
  eth := by decide +kernel
  ethertype := by decide +kernel
  version := by decide +kernel
  ihl := by decide +kernel
  whole := by decide +kernel
  checksum := by decide +kernel

theorem payloadLaw_iff_empty : ∃ s', (netMachine [] quietDevice noAnswers).run bootStack bindEcho = some s' ∧
    PayloadLaw s' emptyFrame.skb :=
  ⟨_, rfl, (payloadLaw_iff [] quietDevice noAnswers bindEcho bootStack _ rfl rfl emptyFrame).2 (.inl (by decide +kernel))⟩

/-- **The byte does not come to the socket.** -/
theorem not_payloadLaw : ¬ ∀ devs dev a l s s', (netMachine devs dev a).init s → (netMachine devs dev a).run s l = some s' →
    ∀ f : Frame, PayloadLaw s' f.skb := by
  intro h
  have hlaw := h [] quietDevice noAnswers bindEcho bootStack _ rfl rfl byteFrame
  rcases (payloadLaw_cleared (by rfl) _).1 hlaw with hp | ⟨d, hd, hno⟩
  · revert hp
    decide +kernel
  have hudp : Packet.proto byteFrame.skb.packet ≠ Ports.ipprotoTcp := by decide +kernel
  cases d with
  | none => exact hd 0 _ ⟨rfl, nofun⟩ ⟨⟨by decide +kernel, by decide +kernel, .inl rfl⟩, nofun⟩
  | some i => exact hno i rfl fun htcp => absurd htcp hudp

end NetCore
end Pico
