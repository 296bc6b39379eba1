import Picomimi.NetRun
/-!
# NetAddress — the addresses that go through the stack

`ip_send` stores the word it is called with (`ipHeader`), so it wants network order; `ip_receive` leaves the source address
in host order.  Every checksum is made with the peer's address in network order.  The word in the header is the one `ip_send`
was called with, which TCP does not convert, but no header is stored: a sender leaves no headroom for one
(`addressLaw_run`).  What a sender calls `ip_send` with stands in a `Call`, and the functions of the source make just these
calls.
-/
namespace Pico
namespace NetCore

open Lib Net

/-! ## The senders -/

/-- The call of `udp_send`, if it comes to one. -/
def udpCall (devs : List NetDevice) (a : Answers) (sk : Sock) (data : List UInt8) (dstIp dstPort : Nat) : Option Call :=
  match netdevGetDefault devs none with
  | none => none
  | some dev =>
    match skbAlloc a.alloc ((data.length + udpHeaderSize + ipHeaderSize + ethHeaderSize + 32) % word32) with
    | none => none
    | some skb =>
      match skbPut skb udpHeaderSize with
      | none => none
      | some (udp, skb) =>
        match skbPut skb data.length with
        | none => none
        | some (payload, skb) =>
          let length := (udpHeaderSize + data.length) % 65536
          let hdr := udpHeader sk.localPort dstPort length
          let skb := (skb.store udp (hdr 0)).store payload data
          let pseudo := htonl dstIp
          let sum := tcpUdpChecksum dev.ip4 pseudo Ports.ipprotoUdp (skb.buf.bytes udp length)
          some ⟨dev, htonl dstIp, Ports.ipprotoUdp, some pseudo, skb.store udp (hdr sum)⟩

/-- The call of `tcp_send_segment`. -/
def tcpCall (devs : List NetDevice) (a : Answers) (sk : Sock) (flags seq ack : Nat) (data : List UInt8) : Option Call :=
  match netdevGetDefault devs none with
  | none => none
  | some dev =>
    match skbAlloc a.alloc ((tcpHeaderSize + data.length + ipHeaderSize + ethHeaderSize + 32) % word32) with
    | none => none
    | some skb =>
      match skbPut skb tcpHeaderSize with
      | none => none
      | some (tcp, skb) =>
        let hdr := tcpHeader sk.localPort sk.remotePort seq (if flags &&& tcpAck = 0 then 0 else htonl ack) flags
          (sk.rcvWnd % 65536)
        let skb := skb.store tcp (hdr 0)
        let skb := match skbPut skb data.length with
          | none => skb
          | some (payload, skb) => skb.store payload data
        let pseudo := htonl sk.remoteIp
        let sum := tcpUdpChecksum dev.ip4 pseudo Ports.ipprotoTcp
          (skb.buf.bytes tcp ((tcpHeaderSize + data.length) % 65536))
        some ⟨dev, sk.remoteIp, Ports.ipprotoTcp, some pseudo, skb.store tcp (hdr sum)⟩

/-- The call of `icmp_send_echo`; its callers have the address in network order. -/
def pingCall (dev : NetDevice) (a : Answers) (dstIp id seq : Nat) : Option Call :=
  match skbAlloc a.alloc (icmpHeaderSize + 64 + ipHeaderSize + ethHeaderSize) with
  | none => none
  | some skb =>
    match skbPut skb icmpHeaderSize with
    | none => none
    | some (hdr, skb) =>
      let icmp := fun sum => icmpHeader icmpEchoRequest 0 sum (id * 65536 % word32 ||| seq)
      let skb := skb.store hdr (icmp 0)
      let skb := match skbPut skb 56 with
        | none => skb
        | some (data, skb) => skb.store data ((List.range 56).map UInt8.ofNat)
      let sum := ipChecksum (skb.buf.bytes hdr (skb.tail - hdr))
      some ⟨dev, dstIp, ipprotoIcmp, none, skb.store hdr (icmp sum)⟩

/-- `icmp_send_echo`. -/
def icmpSendEcho (dev : NetDevice) (a : Answers) (dstIp id seq : Nat) (s : Stack) : Int × Stack :=
  match pingCall dev a dstIp id seq with
  | none => (-enomem, s)
  | some c => c.go a s

/-- The call for a segment without data. -/
def segmentCall (devs : List NetDevice) (a : Answers) (sk : Sock) (g : Segment) : Option Call :=
  tcpCall devs a sk g.flags g.seq g.ack []

/-- The calls of `tcp_receive`, in their order. -/
def answerCalls (devs : List NetDevice) (dev : NetDevice) (a : Answers) (env : Env) (skb : Skb) (s : Stack) : List Call :=
  if skb.len < tcpHeaderSize then []
  else
    match SockTable.inetLookup s.sockets skb.query with
    | none => (resetCall dev a skb).toList
    | some i =>
      match s.sock i with
      | none => []
      | some k => (tcpInput k.sk env skb.segment).sent.filterMap (segmentCall devs a (sender k.sk env skb.segment))

/-- The destination word that `ip_send` stores in the header, if it comes to that. -/
def Call.stored (c : Call) (s : Stack) : Option Nat :=
  (skbPush c.skb ipHeaderSize).map fun skb =>
    let iph := ipHeader (skb.len % 65536) s.ipIdCounter c.proto
    (skb.store skb.data (iph (ipChecksum (iph 0 c.dev.ip4 c.dst)) c.dev.ip4 c.dst)).buf.read32 (skb.data + 16)

/-! ## The calls are what the functions make -/

section Calls

variable {devs : List NetDevice} {dev : NetDevice} {a : Answers} {sk : Sock} {c : Call} {s : Stack}

theorem udpSend_call {data : List UInt8} {dstIp dstPort : Nat} (h : udpCall devs a sk data dstIp dstPort = some c) :
    udpSend devs a sk data dstIp dstPort s =
      some (if (c.go a s).1 < 0 then (c.go a s).1 else Int.bmod data.length word32, (c.go a s).2) := by
  unfold udpCall at h
  unfold udpSend
  rcases hdev : netdevGetDefault devs none with _ | dev <;> rw [hdev] at h
  · cases h
  dsimp only at h ⊢
  rcases halloc : skbAlloc a.alloc ((data.length + udpHeaderSize + ipHeaderSize + ethHeaderSize + 32) % word32) with _ | skb <;>
    rw [halloc] at h
  · cases h
  dsimp only at h ⊢
  rcases hput : skbPut skb udpHeaderSize with _ | ⟨udp, skb₁⟩ <;> rw [hput] at h
  · cases h
  dsimp only at h ⊢
  rcases hput' : skbPut skb₁ data.length with _ | ⟨payload, skb₂⟩ <;> rw [hput'] at h
  · cases h
  cases h
  rfl

theorem tcpSendSegment_call {flags seq ack : Nat} {data : List UInt8} (h : tcpCall devs a sk flags seq ack data = some c) :
    tcpSendSegment devs a sk flags seq ack data s = some (c.go a s) := by
  unfold tcpCall at h
  unfold tcpSendSegment
  rcases hdev : netdevGetDefault devs none with _ | dev <;> rw [hdev] at h
  · cases h
  dsimp only at h ⊢
  rcases halloc : skbAlloc a.alloc ((tcpHeaderSize + data.length + ipHeaderSize + ethHeaderSize + 32) % word32) with _ | skb <;>
    rw [halloc] at h
  · cases h
  dsimp only at h ⊢
  rcases hput : skbPut skb tcpHeaderSize with _ | ⟨tcp, skb₁⟩ <;> rw [hput] at h
  · cases h
  cases h
  rfl

/-- Without a call nothing changes. -/
theorem tcpSendSegment_none {flags seq ack : Nat} {data : List UInt8} (h : tcpCall devs a sk flags seq ack data = none) :
    ((tcpSendSegment devs a sk flags seq ack data s).map Prod.snd).getD s = s := by
  unfold tcpCall at h
  unfold tcpSendSegment
  rcases hdev : netdevGetDefault devs none with _ | dev <;> rw [hdev] at h
  · rfl
  dsimp only at h ⊢
  rcases halloc : skbAlloc a.alloc ((tcpHeaderSize + data.length + ipHeaderSize + ethHeaderSize + 32) % word32) with _ | skb <;>
    rw [halloc] at h
  · rfl
  dsimp only at h ⊢
  rcases hput : skbPut skb tcpHeaderSize with _ | ⟨tcp, skb₁⟩ <;> rw [hput] at h
  · rfl
  cases h

theorem sendAll_calls (devs : List NetDevice) (a : Answers) (sk : Sock) : ∀ (l : List Segment) (s : Stack), sendAll devs a sk l s =
    (l.filterMap (segmentCall devs a sk)).foldl (fun s c => (c.go a s).2) s
  | [], _ => rfl
  | g :: l, s => by
    rw [sendAll, sendAll_calls devs a sk l]
    cases h : segmentCall devs a sk g with
    | none => rw [tcpSendSegment_none h, List.filterMap_cons_none h]
    | some c =>
      rw [tcpSendSegment_call h, List.filterMap_cons_some h]
      rfl

/-- **`tcp_receive` is its calls**, one after another, once the socket has taken the segment. -/
theorem tcpReceive_calls (devs : List NetDevice) (dev : NetDevice) (a : Answers) (env : Env) (skb : Skb) (s : Stack) :
    tcpReceive devs dev a env skb s =
      (answerCalls devs dev a env skb s).foldl (fun s c => (c.go a s).2) (s.taken env skb) := by
  unfold tcpReceive answerCalls Stack.taken
  by_cases hlen : skb.len < tcpHeaderSize
  · rw [if_pos hlen, if_pos hlen, if_pos hlen]
    rfl
  rw [if_neg hlen, if_neg hlen, if_neg hlen]
  cases SockTable.inetLookup s.sockets skb.query with
  | none =>
    show tcpReset dev a skb s = (resetCall dev a skb).toList.foldl _ s
    unfold tcpReset
    cases resetCall dev a skb with
    | none => rfl
    | some c => rfl
  | some i =>
    dsimp only
    cases s.sock i with
    | none => rfl
    | some k => exact sendAll_calls devs a _ _ _

end Calls

/-! ## What should hold -/

/-- A packet as `ip_receive` hands it on: `word` is the source address in its header, as it lies there. -/
structure InPacket where
  skb : Skb
  word : Nat
  word_lt : word < word32
  src : skb.srcIp = ntohl word

theorem read32_lt (m : Mem) (x : Nat) : m.read32 x < word32 := by
  have h0 := (m x).toNat_lt
  have h1 := (m (x + 1)).toNat_lt
  have h2 := (m (x + 2)).toNat_lt
  have h3 := (m (x + 3)).toNat_lt
  unfold Mem.read32 word32
  omega

/-- What `ip_receive` hands on of an IP packet. -/
def received (skb : Skb) : InPacket where
  skb := Skb.pulled { skb with
    srcIp := ntohl (skb.buf.read32 (skb.data + 12))
    dstIp := ntohl (skb.buf.read32 (skb.data + 16))
    protocol := (skb.buf (skb.data + 9)).toNat } ((skb.buf skb.data).toNat % 16 * 4)
  word := skb.buf.read32 (skb.data + 12)
  word_lt := read32_lt _ _
  src := by
    unfold Skb.pulled skbPull
    split <;> rfl

/-- **`ip_receive` hands that on**, or drops the packet. -/
theorem ipReceive_received (rx : Handlers) (skb : Skb) (s : Stack) : ipReceive rx skb s = s ∨ ipReceive rx skb s =
    if (received skb).skb.protocol = ipprotoIcmp then rx.icmp (received skb).skb s
    else if (received skb).skb.protocol = Ports.ipprotoUdp then udpReceive (received skb).skb s
    else if (received skb).skb.protocol = Ports.ipprotoTcp then rx.tcp (received skb).skb s
    else s := by
  have hproto : (received skb).skb.protocol = (skb.buf (skb.data + 9)).toNat := by
    unfold received Skb.pulled skbPull
    dsimp only
    split <;> rfl
  rw [hproto]
  unfold ipReceive
  dsimp only
  split
  · exact Or.inl rfl
  split
  · exact Or.inl rfl
  split
  · exact Or.inl rfl
  · exact Or.inr rfl

/-- Something is sent: to a peer, or in answer to a packet. -/
inductive Sending where
  | udp (sk : Sock) (data : List UInt8) (dstIp dstPort : Nat)
  | connect (sk : Sock) (dstIp dstPort jiffies port : Nat)
  | tcp (sk : Sock) (flags seq ack : Nat) (data : List UInt8)
  | ping (dstIp id seq : Nat)
  | echoReply (r : InPacket)
  | tcpAnswer (r : InPacket) (env : Env)

namespace Sending

variable (devs : List NetDevice) (dev : NetDevice) (a : Answers) (s : Stack)

/-- The calls of `ip_send`. -/
def calls : Sending → List Call
  | .udp sk data dstIp dstPort => (udpCall devs a sk data dstIp dstPort).toList
  | .connect sk dstIp dstPort jiffies port =>
    let r := tcpConnect sk dstIp dstPort jiffies port true
    if r.2 = none then (tcpCall devs a r.1 tcpSyn r.1.sndSeq 0 []).toList else []
  | .tcp sk flags seq ack data => (tcpCall devs a sk flags seq ack data).toList
  | .ping dstIp id seq => (pingCall dev a dstIp id seq).toList
  | .echoReply r => (echoCall dev a r.skb).toList
  | .tcpAnswer r env => answerCalls devs dev a env r.skb s

/-- **The word that should be in the header**: the peer's address in network order, or the source of the packet answered. -/
def wanted : Sending → Nat
  | .udp _ _ dstIp _ => htonl dstIp
  | .connect _ dstIp _ _ _ => htonl dstIp
  | .tcp sk _ _ _ _ => htonl sk.remoteIp
  | .ping dstIp _ _ => dstIp
  | .echoReply r => r.word
  | .tcpAnswer r _ => r.word

/-- **Addresses keep their meaning**: the word stored in the header is the one wanted, and the checksum is made with it. -/
def AddressLaw (x : Sending) : Prop :=
  ∀ c ∈ x.calls devs dev a s, (∀ w ∈ c.stored s, w = x.wanted) ∧ ∀ w ∈ c.pseudo, w = x.wanted

end Sending

/-! ## It does -/

section Law

variable {devs : List NetDevice} {dev : NetDevice} {a : Answers} {sk : Sock} {c : Call} {s : Stack} {skb : Skb}

/-- The four bytes of a word, turned round. -/
theorem htonl_bytes {p q r t : Nat} (hp : p < 256) (hq : q < 256) (hr : r < 256) (ht : t < 256) :
    htonl (p * 16777216 + q * 65536 + r * 256 + t) = t * 16777216 + r * 65536 + q * 256 + p := by
  unfold htonl
  omega

theorem htonl_htonl {w : Nat} (h : w < word32) : htonl (htonl w) = w := by
  have hw : w = w / 16777216 * 16777216 + w / 65536 % 256 * 65536 + w / 256 % 256 * 256 + w % 256 := by omega
  have hp : w / 16777216 < 256 := by
    unfold word32 at h
    omega
  have hq : w / 65536 % 256 < 256 := Nat.mod_lt _ (by decide)
  have hr : w / 256 % 256 < 256 := Nat.mod_lt _ (by decide)
  have ht : w % 256 < 256 := Nat.mod_lt _ (by decide)
  have hone := htonl_bytes hp hq hr ht
  rw [← hw] at hone
  rw [hone, htonl_bytes ht hr hq hp]
  exact hw.symm

/-- A call without headroom, whose checksum is made with `w`, if it has one. -/
structure Call.Bare (c : Call) (w : Nat) : Prop where
  data : c.skb.data = 0
  pseudo : ∀ p ∈ c.pseudo, p = w

/-- **No header is stored without headroom.** -/
theorem Call.Bare.stored {w : Nat} (h : c.Bare w) (s : Stack) : c.stored s = none := by
  unfold Call.stored
  rw [skbPush_eq_none h.data (by decide)]
  rfl

theorem udpCall_bare {data : List UInt8} {dstIp dstPort : Nat} (h : udpCall devs a sk data dstIp dstPort = some c) :
    c.Bare (htonl dstIp) := by
  unfold udpCall at h
  split at h
  · cases h
  split at h
  · cases h
  rename_i skb halloc
  split at h
  · cases h
  rename_i udp skb' hput
  split at h
  · cases h
  rename_i payload skb'' hput'
  cases h
  refine ⟨(skbPut_data hput').trans ((skbPut_data hput).trans (skbAlloc_data halloc)), fun p hp => ?_⟩
  cases hp
  rfl

/-- **A segment's checksum has its peer's address** in network order. -/
theorem tcpCall_bare {flags seq ack : Nat} {data : List UInt8} (h : tcpCall devs a sk flags seq ack data = some c) :
    c.Bare (htonl sk.remoteIp) := by
  unfold tcpCall at h
  split at h
  · cases h
  split at h
  · cases h
  rename_i skb halloc
  split at h
  · cases h
  rename_i tcp skb' hput
  have h0 := (skbPut_data hput).trans (skbAlloc_data halloc)
  cases h
  refine ⟨?_, fun p hp => ?_⟩
  · dsimp only
    rw [Skb.store_data]
    split
    · exact h0
    · rename_i payload skb'' hput'
      exact (skbPut_data hput').trans h0
  · cases hp
    rfl

theorem resetCall_bare (h : resetCall dev a skb = some c) : c.Bare (htonl skb.srcIp) := by
  refine ⟨resetCall_data h, fun p hp => ?_⟩
  unfold resetCall at h
  split at h
  · cases h
  split at h
  · cases h
  cases h
  cases hp
  rfl

theorem echoCall_bare (h : echoCall dev a skb = some c) (w : Nat) : c.Bare w := by
  refine ⟨echoCall_data h, fun p hp => ?_⟩
  unfold echoCall at h
  split at h
  · cases h
  split at h
  · cases h
  split at h
  · cases h
  split at h
  · cases h
  cases h
  cases hp

theorem pingCall_bare {dstIp id seq : Nat} (h : pingCall dev a dstIp id seq = some c) (w : Nat) : c.Bare w := by
  unfold pingCall at h
  split at h
  · cases h
  rename_i skb halloc
  split at h
  · cases h
  rename_i hdr skb' hput
  have h0 := (skbPut_data hput).trans (skbAlloc_data halloc)
  cases h
  refine ⟨?_, nofun⟩
  dsimp only
  rw [Skb.store_data]
  split
  · exact h0
  · rename_i data skb'' hput'
    exact (skbPut_data hput').trans h0

/-- A connect goes to the address it was given. -/
theorem tcpConnect_peer {dstIp dstPort jiffies port : Nat} (h : (tcpConnect sk dstIp dstPort jiffies port true).2 = none) :
    (tcpConnect sk dstIp dstPort jiffies port true).1.remoteIp = dstIp := by
  unfold tcpConnect at h ⊢
  split at h
  · cases h
  split at h
  · cases h
  · rename_i h1 h2
    rw [if_neg h1, if_neg h2]
    rfl

/-- **Every sender's checksum has the word wanted**, and none leaves headroom. -/
theorem calls_bare (hs : s.Cleared) (x : Sending) : ∀ c ∈ x.calls devs dev a s, c.Bare x.wanted := by
  intro c hc
  cases x with
  | udp sk data dstIp dstPort => exact udpCall_bare (Option.mem_toList.1 hc)
  | ping dstIp id seq => exact pingCall_bare (Option.mem_toList.1 hc) _
  | echoReply r => exact echoCall_bare (Option.mem_toList.1 hc) _
  | connect sk dstIp dstPort jiffies port =>
    simp only [Sending.calls] at hc
    split at hc
    · rename_i hr
      have hbare := tcpCall_bare (Option.mem_toList.1 hc)
      rw [tcpConnect_peer hr] at hbare
      exact hbare
    · cases hc
  | tcp sk flags seq ack data => exact tcpCall_bare (Option.mem_toList.1 hc)
  | tcpAnswer r env =>
    simp only [Sending.calls, answerCalls, lookup_cleared hs] at hc
    split at hc
    · cases hc
    · have hbare := resetCall_bare (Option.mem_toList.1 hc)
      rw [r.src] at hbare
      -- the source word comes back
      have hword : htonl (ntohl r.word) = r.word := htonl_htonl r.word_lt
      rw [hword] at hbare
      exact hbare

/-- **Addresses keep their meaning** in all that UDP, TCP and ICMP send, in every state of a run. -/
theorem addressLaw_run (devs : List NetDevice) (dev : NetDevice) (a : Answers) (l : List NetLabel) (s s' : Stack)
    (h : (netMachine devs dev a).init s) (hrun : (netMachine devs dev a).run s l = some s') (x : Sending) :
    x.AddressLaw devs dev a s' := by
  intro c hc
  have hbare := calls_bare (Stack.Cleared.run h hrun) x c hc
  refine ⟨fun w hw => ?_, hbare.pseudo⟩
  rw [hbare.stored] at hw
  cases hw

end Law

/-- A machine with memory. -/
def someMemory : Answers := ⟨fun _ => some fun _ => 0, fun _ => none⟩

/-- A connect to 10.0.0.1: the one call of `ip_send`. -/
theorem addressLaw_run_connect : ∃ s', (Sending.connect (skAlloc 2 1 6 none) 0x0A000001 80 0 4000).AddressLaw
    [quietDevice] quietDevice someMemory s' ∧
      ((Sending.connect (skAlloc 2 1 6 none) 0x0A000001 80 0 4000).calls [quietDevice] quietDevice someMemory s').map
        (fun c => c.pseudo) = [some (htonl 0x0A000001)] :=
  ⟨bootStack, addressLaw_run [quietDevice] quietDevice someMemory [] bootStack bootStack rfl rfl _, by decide +kernel⟩

end NetCore
end Pico
