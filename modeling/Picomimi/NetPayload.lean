import Picomimi.NetReceive
/-!
# NetPayload — the bytes a packet puts into a socket's ring

`udp_receive` and `tcp_receive` hand the rest of the packet to `sock_ringbuf_write`: what `ethHands` says of a frame is what
it writes, in one ring at most (`ethHands_written`).  Neither looks at `tot_len`, nor at the length in the UDP header;
`Packet.payload` is what these say the payload is.
-/
namespace Pico
namespace NetCore

open Lib Net

/-- What goes to `sock_ringbuf_write`: whose ring, and the bytes. -/
abbrev Handed := Option (Nat × List UInt8)

def Handed.bytes (h : Handed) (i : Nat) : List UInt8 :=
  match h with
  | none => []
  | some (j, l) => if j = i then l else []

/-! ## What the receive functions hand over -/

def udpHands (skb : Skb) (s : Stack) : Handed :=
  if skb.len < udpHeaderSize then none
  else
    (SockTable.inetLookup s.sockets
      ⟨Ports.ipprotoUdp, skb.srcIp, ntohs (skb.word16 skb.data), skb.dstIp, ntohs (skb.word16 (skb.data + 2))⟩).map
        fun i => (i, (skb.pulled udpHeaderSize).bytes)

/-- The socket delivers what it takes. -/
def Delivers (s : Stack) (skb : SkBuff) (i : Nat) : Prop :=
  ∃ k, s.sock i = some k ∧ skb.has tcpRst = false ∧ k.sk.state = .established

instance (s : Stack) (skb : SkBuff) (i : Nat) : Decidable (Delivers s skb i) :=
  match h : s.sock i with
  | none => isFalse fun ⟨_, hk, _⟩ => by rw [h] at hk; cases hk
  | some k => decidable_of_iff (skb.has tcpRst = false ∧ k.sk.state = .established)
      ⟨fun hd => ⟨k, h, hd⟩, fun ⟨l, hl, hd⟩ => by rw [h] at hl; cases hl; exact hd⟩

def tcpHands (skb : Skb) (s : Stack) : Handed :=
  if skb.len < tcpHeaderSize then none
  else
    (SockTable.inetLookup s.sockets skb.query).bind fun i =>
      if Delivers s skb.segment i ∧ 0 < skb.segment.payload.length then some (i, skb.segment.payload) else none

def ipHands (skb : Skb) (s : Stack) : Handed :=
  if skb.len < ipHeaderSize then none
  else
    let ihl := (skb.buf skb.data).toNat % 16 * 4
    if ihl < 20 ∨ skb.len < ihl then none
    else if ipChecksum ((skb.store (skb.data + 10) (le16 0)).buf.bytes skb.data ihl) ≠ skb.word16 (skb.data + 10) then none
    else
      let proto := (skb.buf (skb.data + 9)).toNat
      let skb := { skb with
        srcIp := ntohl (skb.buf.read32 (skb.data + 12))
        dstIp := ntohl (skb.buf.read32 (skb.data + 16))
        protocol := proto }
      let skb := skb.pulled ihl
      if proto = Ports.ipprotoUdp then udpHands skb s
      else if proto = Ports.ipprotoTcp then tcpHands skb s
      else none

def ethHands (skb : Skb) (s : Stack) : Handed :=
  if skb.len < ethHeaderSize then none
  else if ntohs (skb.word16 (skb.data + 12)) = ethPIp then ipHands (skb.pulled ethHeaderSize) s
  else none

/-! ## And it goes into the rings -/

/-- A socket's receive ring. -/
def Stack.ring (s : Stack) (i : Nat) : Option SockRingbuf := (s.sock i).map fun k => k.sk.rcvbuf

/-- The rings, after `h` is written to one of them. -/
def Handed.Written (h : Handed) (s s' : Stack) : Prop := ∀ i, s'.ring i = (s.ring i).map fun rb =>
  match h with
  | none => rb
  | some (j, l) => if j = i then (sockRingbufWrite rb l).1 else rb

section Written

variable {devs : List NetDevice} {dev : NetDevice} {a : Answers} {env : Env} {arp : Skb → Stack → Stack} {skb : Skb}
  {s : Stack} {i : Nat} {k l : Ports.Socket}

theorem Handed.written_none (s : Stack) : Handed.Written none s s := fun i => (congrFun Option.map_id_fun' (s.ring i)).symm

theorem ring_setSock (s : Stack) (i : Nat) (k : Ports.Socket) (j : Nat) :
    (s.setSock i k).ring j = if j = i then some k.sk.rcvbuf else s.ring j := by
  show (Function.update s.sockets.ports.socks i (some k) j).map _ = _
  by_cases h : j = i
  · rw [h, if_pos rfl, Function.update_self]
    rfl
  · rw [if_neg h, Function.update_of_ne h]
    rfl

/-- One socket's ring is written. -/
theorem Handed.written_setSock {bytes : List UInt8} (hk : s.sock i = some k)
    (h : l.sk.rcvbuf = (sockRingbufWrite k.sk.rcvbuf bytes).1) : Handed.Written (some (i, bytes)) s (s.setSock i l) := by
  intro j
  rw [ring_setSock]
  by_cases hj : j = i
  · have hring : s.ring i = some k.sk.rcvbuf := congrArg (Option.map _) hk
    rw [if_pos hj, hj, hring, h]
    exact congrArg some (if_pos rfl).symm
  · rw [if_neg hj]
    cases s.ring j with
    | none => rfl
    | some rb => exact congrArg some (if_neg (Ne.symm hj)).symm

/-- A socket whose ring stays. -/
theorem Handed.written_same (hk : s.sock i = some k) (h : l.sk.rcvbuf = k.sk.rcvbuf) :
    Handed.Written none s (s.setSock i l) := by
  intro j
  rw [ring_setSock]
  by_cases hj : j = i
  · have hring : s.ring i = some k.sk.rcvbuf := congrArg (Option.map _) hk
    rw [if_pos hj, hj, hring, h]
    rfl
  · rw [if_neg hj]
    exact (congrFun Option.map_id_fun' (s.ring j)).symm

theorem udpHands_written (skb : Skb) (s : Stack) : (udpHands skb s).Written s (udpReceive skb s) := by
  unfold udpHands udpReceive
  split
  · exact Handed.written_none s
  rename_i hlen
  simp only [Skb.pulled, skbPull, if_neg hlen, Option.getD_some]
  cases SockTable.inetLookup s.sockets
      ⟨Ports.ipprotoUdp, skb.srcIp, ntohs (skb.word16 skb.data), skb.dstIp, ntohs (skb.word16 (skb.data + 2))⟩ with
  | none => exact Handed.written_none s
  | some i =>
    show Handed.Written (some (i, _)) s (s.deliver i _)
    unfold Stack.deliver
    split
    · rename_i hk
      intro j
      by_cases hj : j = i
      · have hring : s.ring i = none := congrArg (Option.map _) hk
        rw [hj, hring]
        rfl
      · cases s.ring j with
        | none => rfl
        | some rb => exact congrArg some (if_neg (Ne.symm hj)).symm
    · rename_i k hk
      exact Handed.written_setSock hk rfl

theorem segment_length (skb : Skb) : skb.segment.data.length = skb.len := Mem.bytes_length _ _ _

theorem tcpHands_written (skb : Skb) (s : Stack) : (tcpHands skb s).Written s (tcpReceive devs dev a env skb s) := by
  rw [tcpReceive_eq, Stack.taken]
  unfold tcpHands
  by_cases hlen : skb.len < tcpHeaderSize
  · rw [if_pos hlen, if_pos hlen]
    exact Handed.written_none s
  rw [if_neg hlen, if_neg hlen]
  cases SockTable.inetLookup s.sockets skb.query with
  | none => exact Handed.written_none s
  | some i =>
    dsimp only [Option.bind]
    cases hk : s.sock i with
    | none =>
      rw [if_neg]
      · exact Handed.written_none s
      · rintro ⟨⟨k, hk', -⟩, -⟩
        rw [hk] at hk'
        cases hk'
    | some k =>
      dsimp only
      have hring := tcpInput_rcvbuf k.sk env skb.segment
      rw [segment_length] at hring
      by_cases hd : Delivers s skb.segment i ∧ 0 < skb.segment.payload.length
      · obtain ⟨⟨l, hl, hrst, hst⟩, hp⟩ := hd
        rw [hk] at hl
        cases hl
        rw [if_pos ⟨⟨k, hk, hrst, hst⟩, hp⟩]
        rw [if_pos ⟨Nat.le_of_not_lt hlen, hrst, hst, hp⟩] at hring
        exact Handed.written_setSock hk hring
      · rw [if_neg hd]
        rw [if_neg fun h => hd ⟨⟨k, hk, h.2.1, h.2.2.1⟩, h.2.2.2⟩] at hring
        exact Handed.written_same hk hring

theorem ipHands_written (skb : Skb) (s : Stack) :
    (ipHands skb s).Written s (ipReceive (handlers devs dev a env arp) skb s) := by
  unfold ipHands ipReceive
  split
  · exact Handed.written_none s
  dsimp only
  split
  · exact Handed.written_none s
  split
  · exact Handed.written_none s
  generalize (skb.buf (skb.data + 9)).toNat = proto
  by_cases hicmp : proto = ipprotoIcmp
  · have hudp : proto ≠ Ports.ipprotoUdp := by
      rw [hicmp]
      decide
    have htcp : proto ≠ Ports.ipprotoTcp := by
      rw [hicmp]
      decide
    rw [if_pos hicmp, if_neg hudp, if_neg htcp]
    show Handed.Written none s (icmpReceive dev a _ s)
    rw [icmpReceive_eq]
    exact Handed.written_none s
  rw [if_neg hicmp]
  split
  · exact udpHands_written _ s
  split
  · exact tcpHands_written _ s
  · exact Handed.written_none s

/-- **A frame writes what it hands over**, in one ring at most; what ARP does with its own is left open. -/
theorem ethHands_written (skb : Skb) (s : Stack) (harp : ntohs (skb.word16 (skb.data + 12)) ≠ ethPArp) :
    (ethHands skb s).Written s (ethReceive (handlers devs dev a env arp) skb s) := by
  unfold ethHands ethReceive
  split
  · exact Handed.written_none s
  dsimp only
  rw [if_neg harp]
  split
  · exact ipHands_written (s := { s with arpCache := _ }) _
  · exact Handed.written_none s

end Written

/-! ## What the headers say -/

-- `p` is an IP packet, with what the link has put behind it
namespace Packet

variable (p : List UInt8)

def version : Nat := (p.getD 0 0).toNat / 16
def ihl : Nat := (p.getD 0 0).toNat % 16 * 4
def totLen : Nat := be16 p 2
def proto : Nat := (p.getD 9 0).toNat
def checksum : Nat := (p.getD 10 0).toNat + 256 * (p.getD 11 0).toNat

/-- The checksum the header should have. -/
def headerSum : Nat := ipChecksum (p.take 10 ++ [0, 0] ++ (p.take (ihl p)).drop 12)

/-- What follows the IP header, with the addresses in that. -/
def segment : SkBuff := ⟨p.drop (ihl p), be32 p 12, be32 p 16⟩

def udpLength : Nat := be16 (segment p).data 4

/-- **The payload, by the headers**: from the end of the transport header to the end of the IP packet and of the datagram,
and nothing where a length is too short or too long. -/
def payload : List UInt8 :=
  if totLen p < ihl p ∨ p.length < totLen p then []
  else if proto p = Ports.ipprotoUdp then
    if udpLength p < udpHeaderSize ∨ (segment p).data.length < udpLength p then []
    else ((segment p).data.take (min (totLen p - ihl p) (udpLength p))).drop udpHeaderSize
  else if proto p = Ports.ipprotoTcp then
    if (segment p).hdrLen < tcpHeaderSize ∨ (segment p).data.length < (segment p).hdrLen then []
    else ((segment p).data.take (totLen p - ihl p)).drop (segment p).hdrLen
  else []

end Packet

/-- The packet in a frame. -/
def Skb.packet (skb : Skb) : List UInt8 := skb.bytes.drop ethHeaderSize

/-- **A received frame with a valid IPv4 header.** -/
structure Frame where
  skb : Skb
  small : skb.len < word32
  eth : ethHeaderSize ≤ skb.len
  ethertype : be16 skb.bytes 12 = ethPIp
  version : Packet.version skb.packet = 4
  ihl : 20 ≤ Packet.ihl skb.packet
  whole : Packet.ihl skb.packet ≤ skb.packet.length
  checksum : Packet.headerSum skb.packet = Packet.checksum skb.packet

/-! ## A datagram -/

/-- A datagram from 10.0.0.1 to port 7 of 10.0.0.2, with `l` behind its UDP header. -/
def udpFrame (totLen length checksum : Nat) (l : List UInt8) : Skb :=
  frameOf (ethHeader (List.replicate 6 2) (List.replicate 6 1) ethPIp ++
    ipHeader totLen 0 Ports.ipprotoUdp checksum (htonl 0x0A000001) (htonl 0x0A000002) ++ udpHeader 9 7 length 0 ++ l)

/-- A UDP socket at port 7, in the table. -/
def echoStack : Stack where
  sockets := {
    ports := Ports.boot.set 0 (some ((Ports.sysSocket Ports.sockDgram 0 none).setPort 7))
    table := fun n => if n = 0 then some 0 else none }
  arpCache := bootCache
  ipIdCounter := 0x1234

theorem ethHands_written_udp : (ethHands (udpFrame 29 9 52838 [65]) echoStack).Written echoStack
    (ethReceive (handlers [] ⟨"", [], 0, 0, 0, true, none⟩ ⟨fun _ => none, fun _ => none⟩ ⟨0, true, none, true⟩ fun _ s => s)
      (udpFrame 29 9 52838 [65]) echoStack) :=
  ethHands_written _ _ (by decide +kernel)

end NetCore
end Pico
