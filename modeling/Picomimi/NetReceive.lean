import Picomimi.NetCore
/-!
# NetReceive — what ICMP and TCP do with a packet, in `net/net_core.c` and `net/tcp.c`

`icmp_receive` answers an echo request, `tcp_receive` looks its socket up and hands it the segment, or answers with a reset.
What they send goes through `ip_send`, and no send succeeds, so a packet changes one socket at most
(`icmpReceive_eq`, `tcpReceive_eq`).
-/
namespace Pico
namespace NetCore

open Lib Net

/-- Bytes as a driver hands them over. -/
def frameOf (l : List UInt8) : Skb := ⟨fun i => l.getD i 0, 0, l.length, l.length, l.length, 0, 0, 0, 0, 0⟩

/-- A device that takes no frame. -/
def quietDevice : NetDevice := ⟨"eth0", [], 0, 0, 0, true, none⟩

def icmpHeaderSize : Nat := 8
def icmpEchoReply : Nat := 0
def icmpEchoRequest : Nat := 8

/-- `rest` as it lies in memory. -/
def icmpHeader (type code checksum rest : Nat) : List UInt8 :=
  [UInt8.ofNat type, UInt8.ofNat code] ++ le16 checksum ++ le32 rest

/-- A call of `ip_send`: the word for the header, and the one the transport's checksum was made with, if it has one. -/
structure Call where
  dev : NetDevice
  dst : Nat
  proto : Nat
  pseudo : Option Nat
  skb : Skb

/-- What becomes of it. -/
def Call.go (c : Call) (a : Answers) (s : Stack) : Int × Stack := ipSend c.dev a c.dst c.proto c.skb s

/-- The call of `icmp_receive`, the answer to an echo request. -/
def echoCall (dev : NetDevice) (a : Answers) (skb : Skb) : Option Call :=
  if skb.len < icmpHeaderSize then none
  else if (skb.buf skb.data).toNat ≠ icmpEchoRequest then none
  else
    match skbAlloc a.alloc ((skb.len + ipHeaderSize + ethHeaderSize + 64) % word32) with
    | none => none
    | some reply =>
      match skbPut reply icmpHeaderSize with
      | none => none                -- a null pointer is written through; only where the size above has wrapped
      | some (rep, reply) =>
        let hdr := fun sum => icmpHeader icmpEchoReply 0 sum (skb.buf.read32 (skb.data + 4))
        let reply := reply.store rep (hdr 0)
        let reply := match skbPut reply (skb.len - icmpHeaderSize) with
          | none => reply
          | some (payload, reply) => reply.store payload (skb.bytes.drop icmpHeaderSize)
        let sum := ipChecksum (reply.buf.bytes rep (reply.tail - rep))
        some ⟨dev, htonl skb.srcIp, ipprotoIcmp, none, reply.store rep (hdr sum)⟩

/-- `icmp_receive`. -/
def icmpReceive (dev : NetDevice) (a : Answers) (skb : Skb) (s : Stack) : Stack :=
  match echoCall dev a skb with
  | none => s
  | some c => (c.go a s).2

/-- The segment in a packet that `ip_receive` has pulled its header off. -/
def Skb.segment (skb : Skb) : SkBuff := ⟨skb.bytes, skb.srcIp, skb.dstIp⟩

/-- The call of `tcp_receive` for a segment that no socket takes. -/
def resetCall (dev : NetDevice) (a : Answers) (skb : Skb) : Option Call :=
  match skbAlloc a.alloc (tcpHeaderSize + ipHeaderSize + ethHeaderSize + 32) with
  | none => none
  | some rst =>
    match skbPut rst tcpHeaderSize with
    | none => none                  -- never: there is room for it
    | some (rt, rst) =>
      let hdr := tcpHeader skb.segment.dstPort skb.segment.srcPort skb.segment.ack 0 (tcpRst ||| tcpAck) 0
      let rst := rst.store rt (hdr 0)
      -- the checksum takes the address in network order, the header as it is
      let pseudo := htonl skb.srcIp
      let sum := tcpUdpChecksum dev.ip4 pseudo Ports.ipprotoTcp (rst.buf.bytes rt tcpHeaderSize)
      some ⟨dev, skb.srcIp, Ports.ipprotoTcp, some pseudo, rst.store rt (hdr sum)⟩

/-- The answer to it. -/
def tcpReset (dev : NetDevice) (a : Answers) (skb : Skb) (s : Stack) : Stack :=
  match resetCall dev a skb with
  | none => s
  | some c => (c.go a s).2

/-- Whose segments a socket sends while it takes one: a listener's are its new connection's. -/
def sender (sk : Sock) (env : Env) (skb : SkBuff) : Sock := if sk.state = .listen then newSk sk env skb else sk

/-- The segments of `tcp_receive`, one after another; it does not look at what becomes of them. -/
def sendAll (devs : List NetDevice) (a : Answers) (sk : Sock) : List Segment → Stack → Stack
  | [], s => s
  | g :: l, s => sendAll devs a sk l (((tcpSendSegment devs a sk g.flags g.seq g.ack [] s).map Prod.snd).getD s)

/-- How a segment is looked up. -/
def Skb.query (skb : Skb) : SockTable.Query :=
  ⟨Ports.ipprotoTcp, skb.srcIp, skb.segment.srcPort, skb.dstIp, skb.segment.dstPort⟩

/-- `tcp_receive`. -/
def tcpReceive (devs : List NetDevice) (dev : NetDevice) (a : Answers) (env : Env) (skb : Skb) (s : Stack) : Stack :=
  if skb.len < tcpHeaderSize then s
  else
    match SockTable.inetLookup s.sockets skb.query with
    | none => tcpReset dev a skb s
    | some i =>
      match s.sock i with
      | none => s                   -- freed memory
      | some k =>
        let o := tcpInput k.sk env skb.segment
        sendAll devs a (sender k.sk env skb.segment) o.sent (s.setSock i (Ports.input k skb.segment env))

/-- The receive functions over a device; `arp` is left open. -/
def handlers (devs : List NetDevice) (dev : NetDevice) (a : Answers) (env : Env) (arp : Skb → Stack → Stack) : Handlers where
  arp := arp
  icmp := icmpReceive dev a
  tcp := tcpReceive devs dev a env

/-! ## Nothing is sent -/

theorem Call.go_eq {c : Call} (h : c.skb.data = 0) (a : Answers) (s : Stack) : c.go a s = (-enomem, s) := ipSend_eq h _ _

theorem echoCall_data {dev : NetDevice} {a : Answers} {skb : Skb} {c : Call} (h : echoCall dev a skb = some c) :
    c.skb.data = 0 := by
  unfold echoCall at h
  split at h
  · cases h
  split at h
  · cases h
  split at h
  · cases h
  rename_i reply halloc
  split at h
  · cases h
  rename_i rep reply' hput
  have h0 := (skbPut_data hput).trans (skbAlloc_data halloc)
  cases h
  dsimp only
  rw [Skb.store_data]
  split
  · exact h0
  · rename_i payload reply'' hput'
    exact (skbPut_data hput').trans h0

theorem resetCall_data {dev : NetDevice} {a : Answers} {skb : Skb} {c : Call} (h : resetCall dev a skb = some c) :
    c.skb.data = 0 := by
  unfold resetCall at h
  split at h
  · cases h
  rename_i rst halloc
  split at h
  · cases h
  rename_i rt rst' hput
  cases h
  exact (skbPut_data hput).trans (skbAlloc_data halloc)

/-- **An echo request changes nothing**, and gets no reply. -/
theorem icmpReceive_eq (dev : NetDevice) (a : Answers) (skb : Skb) (s : Stack) : icmpReceive dev a skb s = s := by
  unfold icmpReceive
  split
  · rfl
  · rename_i c h
    rw [Call.go_eq (echoCall_data h)]

theorem tcpReset_eq (dev : NetDevice) (a : Answers) (skb : Skb) (s : Stack) : tcpReset dev a skb s = s := by
  unfold tcpReset
  split
  · rfl
  · rename_i c h
    rw [Call.go_eq (resetCall_data h)]

theorem sendAll_eq (devs : List NetDevice) (a : Answers) (sk : Sock) : ∀ (l : List Segment) (s : Stack),
    sendAll devs a sk l s = s
  | [], _ => rfl
  | g :: l, s => by
    have hsnd : ((tcpSendSegment devs a sk g.flags g.seq g.ack [] s).map Prod.snd).getD s = s := by
      have hf : Fails (tcpSendSegment devs a sk g.flags g.seq g.ack [] s) s := tcpSendSegment_fails sk g.flags g.seq g.ack []
      cases h : tcpSendSegment devs a sk g.flags g.seq g.ack [] s with
      | none => rfl
      | some x => exact (hf x h).2
    rw [sendAll, hsnd, sendAll_eq devs a sk l s]

/-- The sockets, once the one that a segment is for has taken it. -/
def Stack.taken (s : Stack) (env : Env) (skb : Skb) : Stack :=
  if skb.len < tcpHeaderSize then s
  else match SockTable.inetLookup s.sockets skb.query with
    | none => s
    | some i => match s.sock i with
      | none => s
      | some k => s.setSock i (Ports.input k skb.segment env)

/-- **A segment changes the socket it is for**, and nothing else. -/
theorem tcpReceive_eq (devs : List NetDevice) (dev : NetDevice) (a : Answers) (env : Env) (skb : Skb) (s : Stack) :
    tcpReceive devs dev a env skb s = s.taken env skb := by
  unfold tcpReceive Stack.taken
  split
  · rfl
  split
  · exact tcpReset_eq dev a skb s
  split
  · rfl
  · exact sendAll_eq devs a _ _ _

end NetCore
end Pico
