import Picomimi.Skb
import Picomimi.SockTable
/-!
# NetCore — the way of a packet out and in, in `net/net_core.c`

`ip_send` puts its headers in front of what `udp_send` and `tcp_send_segment` hand it, and the loopback device turns the
frame round into the receive path.  No packet gets that far: the senders allocate without headroom, so `ip_send` finds no
place for its header and returns `-ENOMEM` (`ipSend_eq`), and no send succeeds (`udpSend_fails`, `tcpSendSegment_fails`).
What ARP, ICMP and TCP do with what they receive is left open.
-/
namespace Pico
namespace NetCore

open Lib Net

def enomem : Int := 12
def enodev : Int := 19
def enetdown : Int := 100

def ipprotoIcmp : Nat := 1

/-- `INADDR_LOOPBACK`. -/
def inaddrLoopback : Nat := 0x7F000001

structure ArpEntry where
  ip : Nat
  mac : List UInt8
  valid : Bool

/-- The sockets and the variables of `net_core.c`. -/
structure Stack where
  sockets : SockTable.State
  arpCache : List ArpEntry
  ipIdCounter : Nat

def Stack.sock (s : Stack) (i : Nat) : Option Ports.Socket := s.sockets.ports.socks i

def Stack.withPorts (s : Stack) (ports : Ports.State) : Stack := { s with sockets := { s.sockets with ports := ports } }

def Stack.setSock (s : Stack) (i : Nat) (k : Ports.Socket) : Stack := s.withPorts (s.sockets.ports.set i (some k))

structure NetDevice where
  name : String
  mac : List UInt8
  ip4 : Nat                   -- the addresses in network order
  netmask : Nat
  gateway : Nat
  up : Bool
  transmit : Option (Skb → Stack → Int × Stack)

/-- What the code leaves to others: what an allocation of a size returns, and what answers an ARP request in time. -/
structure Answers where
  alloc : Nat → Option Mem
  arp : Nat → Option (List UInt8)

/-- The receive functions of the protocols that are not modelled here. -/
structure Handlers where
  arp : Skb → Stack → Stack
  icmp : Skb → Stack → Stack
  tcp : Skb → Stack → Stack

/-- The loop of `netdev_get_default` from `lo`. -/
def netdevGetDefault : List NetDevice → Option NetDevice → Option NetDevice
  | [], lo => lo
  | d :: l, lo => if d.name = "lo" then netdevGetDefault l (some d) else if d.up then some d else netdevGetDefault l lo

/-! ## ARP -/

/-- `arp_cache_insert`: at the address's own entry or the first free one, whichever comes first, or over the first of all. -/
def arpCacheInsert (cache : List ArpEntry) (ip : Nat) (mac : List UInt8) : List ArpEntry :=
  cache.set ((cache.findIdx? fun e => e.ip = ip || !e.valid).getD 0) ⟨ip, mac, true⟩

/-- `arp_resolve`. -/
def arpResolve (a : Answers) (cache : List ArpEntry) (ip : Nat) : Option (List UInt8) :=
  if ip % 256 = 0x7F then some (List.replicate 6 0)
  else match cache.find? fun e => e.valid && e.ip = ip with
    | some e => some e.mac
    | none => a.arp ip

/-- The 16 entries after `net_init`. -/
def bootCache : List ArpEntry := List.replicate 16 ⟨0, List.replicate 6 0, false⟩

/-! ## Sending -/

/-- `ip_send` through a device; the address is in network order. -/
def ipSend (dev : NetDevice) (a : Answers) (dstIp proto : Nat) (skb : Skb) (s : Stack) : Int × Stack :=
  match skbPush skb ipHeaderSize with
  | none => (-enomem, s)
  | some skb =>
    let iph := ipHeader (skb.len % 65536) s.ipIdCounter proto
    let skb := skb.store skb.data (iph (ipChecksum (iph 0 dev.ip4 dstIp)) dev.ip4 dstIp)
    let s := { s with ipIdCounter := (s.ipIdCounter + 1) % 65536 }
    match skbPush skb ethHeaderSize with
    | none => (-enomem, s)
    | some skb =>
      let nexthop := if dstIp &&& dev.netmask ≠ dev.ip4 &&& dev.netmask then dev.gateway else dstIp
      let dstMac := (arpResolve a s.arpCache nexthop).getD (List.replicate 6 0xFF)
      match dev.transmit with
      | none => (-enodev, s)
      | some transmit => transmit (skb.store skb.data (ethHeader dstMac dev.mac ethPIp)) s

/-- `udp_send`; without a result where it writes the header through a null pointer. -/
def udpSend (devs : List NetDevice) (a : Answers) (sk : Sock) (data : List UInt8) (dstIp dstPort : Nat) (s : Stack) :
    Option (Int × Stack) :=
  match netdevGetDefault devs none with
  | none => some (-enetdown, s)
  | some dev =>
    match skbAlloc a.alloc ((data.length + udpHeaderSize + ipHeaderSize + ethHeaderSize + 32) % word32) with
    | none => some (-enomem, s)
    | some skb =>
      match skbPut skb udpHeaderSize with
      | none => none
      | some (udp, skb) =>
        match skbPut skb data.length with
        | none => some (-enomem, s)
        | some (payload, skb) =>
          let length := (udpHeaderSize + data.length) % 65536
          let hdr := udpHeader sk.localPort dstPort length
          let skb := (skb.store udp (hdr 0)).store payload data
          let sum := tcpUdpChecksum dev.ip4 (htonl dstIp) Ports.ipprotoUdp (skb.buf.bytes udp length)
          match ipSend dev a (htonl dstIp) Ports.ipprotoUdp (skb.store udp (hdr sum)) s with
          | (r, s) => some (if r < 0 then r else Int.bmod data.length word32, s)

/-- `tcp_send_segment`; without a result where it writes the header through a null pointer. -/
def tcpSendSegment (devs : List NetDevice) (a : Answers) (sk : Sock) (flags seq ack : Nat) (data : List UInt8) (s : Stack) :
    Option (Int × Stack) :=
  match netdevGetDefault devs none with
  | none => some (-enetdown, s)
  | some dev =>
    match skbAlloc a.alloc ((tcpHeaderSize + data.length + ipHeaderSize + ethHeaderSize + 32) % word32) with
    | none => some (-enomem, s)
    | some skb =>
      match skbPut skb tcpHeaderSize with
      | none => none
      | some (tcp, skb) =>
        let hdr := tcpHeader sk.localPort sk.remotePort seq (if flags &&& tcpAck = 0 then 0 else htonl ack) flags
          (sk.rcvWnd % 65536)
        let skb := skb.store tcp (hdr 0)
        let skb := match skbPut skb data.length with
          | none => skb
          | some (payload, skb) => skb.store payload data
        let seg := skb.buf.bytes tcp ((tcpHeaderSize + data.length) % 65536)
        -- the checksum takes the address in network order, the header as it is
        let sum := tcpUdpChecksum dev.ip4 (htonl sk.remoteIp) Ports.ipprotoTcp seg
        some (ipSend dev a sk.remoteIp Ports.ipprotoTcp (skb.store tcp (hdr sum)) s)

/-! ## Receiving -/

/-- `sock_ringbuf_write` to a socket's receive ring. -/
def Stack.deliver (s : Stack) (i : Nat) (bytes : List UInt8) : Stack :=
  match s.sock i with
  | none => s
  | some k => s.setSock i { k with sk := { k.sk with rcvbuf := (sockRingbufWrite k.sk.rcvbuf bytes).1 } }

def udpReceive (skb : Skb) (s : Stack) : Stack :=
  if skb.len < udpHeaderSize then s
  else
    let skb := { skb with srcPort := ntohs (skb.word16 skb.data), dstPort := ntohs (skb.word16 (skb.data + 2)) }
    let skb := skb.pulled udpHeaderSize
    match SockTable.inetLookup s.sockets ⟨Ports.ipprotoUdp, skb.srcIp, skb.srcPort, skb.dstIp, skb.dstPort⟩ with
    | none => s
    | some i => s.deliver i skb.bytes

def ipReceive (rx : Handlers) (skb : Skb) (s : Stack) : Stack :=
  if skb.len < ipHeaderSize then s
  else
    let ihl := (skb.buf skb.data).toNat % 16 * 4
    if ihl < 20 ∨ skb.len < ihl then s
    else
      let saved := skb.word16 (skb.data + 10)
      if ipChecksum ((skb.store (skb.data + 10) (le16 0)).buf.bytes skb.data ihl) ≠ saved then s
      else
        let proto := (skb.buf (skb.data + 9)).toNat
        let skb := { skb with
          srcIp := ntohl (skb.buf.read32 (skb.data + 12))
          dstIp := ntohl (skb.buf.read32 (skb.data + 16))
          protocol := proto }
        let skb := skb.pulled ihl
        if proto = ipprotoIcmp then rx.icmp skb s
        else if proto = Ports.ipprotoUdp then udpReceive skb s
        else if proto = Ports.ipprotoTcp then rx.tcp skb s
        else s

def ethReceive (rx : Handlers) (skb : Skb) (s : Stack) : Stack :=
  if skb.len < ethHeaderSize then s
  else
    let ethertype := ntohs (skb.word16 (skb.data + 12))
    let s := { s with arpCache := arpCacheInsert s.arpCache 0 (skb.buf.bytes (skb.data + 6) 6) }
    let skb := skb.pulled ethHeaderSize
    if ethertype = ethPArp then rx.arp skb s
    else if ethertype = ethPIp then ipReceive rx skb s
    else s

/-! ## The loopback device -/

def loTransmit (a : Answers) (rx : Handlers) (skb : Skb) (s : Stack) : Int × Stack :=
  match skbAlloc a.alloc (add32 skb.len 64) with
  | none => (-enomem, s)
  | some lb =>
    match skbPut lb skb.len with
    | none => (0, ethReceive rx lb s)
    | some (d, lb) => (0, ethReceive rx (lb.store d skb.bytes) s)

/-- `loopback_init`. -/
def loDev (a : Answers) (rx : Handlers) : NetDevice where
  name := "lo"
  mac := List.replicate 6 0
  ip4 := htonl inaddrLoopback
  netmask := htonl 0xFF000000
  gateway := htonl inaddrLoopback
  up := true
  transmit := some (loTransmit a rx)

/-! ## No send succeeds -/

variable {dev : NetDevice} {devs : List NetDevice} {a : Answers} {s : Stack} {skb : Skb}

theorem ipSend_eq (h : skb.data = 0) (dstIp proto : Nat) : ipSend dev a dstIp proto skb s = (-enomem, s) := by
  unfold ipSend
  rw [skbPush_eq_none h (by decide)]

/-- Neither a result nor a change, or an error. -/
def Fails (r : Option (Int × Stack)) (s : Stack) : Prop := ∀ x ∈ r, x.1 < 0 ∧ x.2 = s

theorem fails_none : Fails none s := fun x h => absurd h (Option.not_mem_none x)

theorem fails_some {e : Int} (he : e < 0) : Fails (some (e, s)) s := by
  intro x hx
  cases hx
  exact ⟨he, rfl⟩

/-- **`udp_send` succeeds with no payload**, over no device. -/
theorem udpSend_fails (sk : Sock) (data : List UInt8) (dstIp dstPort : Nat) :
    Fails (udpSend devs a sk data dstIp dstPort s) s := by
  unfold udpSend
  split
  · exact fails_some (by decide)
  · split
    · exact fails_some (by decide)
    · rename_i skb halloc
      have h0 := skbAlloc_data halloc
      split
      · exact fails_none
      · rename_i udp skb' hput
        have h1 := skbPut_data hput
        split
        · exact fails_some (by decide)
        · rename_i payload skb'' hput'
          have h2 := skbPut_data hput'
          have hneg : -enomem < 0 := by decide
          simp only
          rw [ipSend_eq]
          · rw [if_pos hneg]
            exact fails_some hneg
          · -- the packet still starts where its memory does
            exact (h2.trans h1).trans h0

/-- **`tcp_send_segment` sends no segment.** -/
theorem tcpSendSegment_fails (sk : Sock) (flags seq ack : Nat) (data : List UInt8) :
    Fails (tcpSendSegment devs a sk flags seq ack data s) s := by
  unfold tcpSendSegment
  split
  · exact fails_some (by decide)
  · split
    · exact fails_some (by decide)
    · rename_i skb halloc
      have h0 := skbAlloc_data halloc
      split
      · exact fails_none
      · rename_i tcp skb' hput
        have h1 := skbPut_data hput
        simp only
        rw [ipSend_eq]
        · exact fails_some (by decide)
        · rw [Skb.store_data]
          split
          · exact h1.trans h0
          · rename_i payload skb'' hput'
            exact (skbPut_data hput').trans (h1.trans h0)

end NetCore
end Pico
