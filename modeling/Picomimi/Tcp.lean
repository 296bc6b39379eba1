import Picomimi.SockRing
/-!
# Tcp — the state machine of `net/tcp.c`

`tcpInput` is `tcp_receive` once `inet_lookup` has found the socket: header parsing, the reset test and the switch over
the states.  What it sends, and the socket a listener queues, is returned beside the socket; `tcp_send_segment`'s own
result is ignored there, as it is in the source.
-/
namespace Pico
namespace Net

open Lib

def tcpFin : Nat := 0x01
def tcpSyn : Nat := 0x02
def tcpRst : Nat := 0x04
def tcpPsh : Nat := 0x08
def tcpAck : Nat := 0x10

def sockRcvbufSize : Nat := 64 * 1024
def sockBacklogMax : Nat := 128
def tcpHeaderSize : Nat := 20

def econnreset : Int := 104
def eisconn : Int := 106
def einval : Int := 22
def eaddrinuse : Int := 98

inductive TcpState where
  | closed | listen | synSent | synRcvd | established | finWait1 | finWait2 | closeWait | closing | lastAck | timeWait
deriving DecidableEq

/-- The fields of `sock_t` that `tcp.c` reads and writes. -/
structure Sock where
  family : Nat
  type : Nat
  protocol : Nat
  state : TcpState
  err : Int
  connected : Bool
  listening : Bool
  localIp : Nat
  localPort : Nat
  remoteIp : Nat
  remotePort : Nat
  rcvbuf : SockRingbuf
  backlogMax : Int
  backlogLen : Int
  sndSeq : Nat
  sndUna : Nat
  sndNxt : Nat
  rcvSeq : Nat
  rcvNxt : Nat
  rcvWnd : Nat

/-- A received packet, the transport header first. -/
structure SkBuff where
  data : List UInt8
  srcIp : Nat
  dstIp : Nat

/-- What `tcp_send_segment` puts on the wire. -/
structure Segment where
  flags : Nat
  seq : Nat
  ack : Nat
  len : Nat

def be16 (data : List UInt8) (i : Nat) : Nat := (data.getD i 0).toNat * 256 + (data.getD (i + 1) 0).toNat

def be32 (data : List UInt8) (i : Nat) : Nat := be16 data i * 65536 + be16 data (i + 2)

def SkBuff.srcPort (skb : SkBuff) : Nat := be16 skb.data 0
def SkBuff.dstPort (skb : SkBuff) : Nat := be16 skb.data 2
def SkBuff.seq (skb : SkBuff) : Nat := be32 skb.data 4
def SkBuff.ack (skb : SkBuff) : Nat := be32 skb.data 8
/-- `(tcp->data_off >> 4) * 4`. -/
def SkBuff.hdrLen (skb : SkBuff) : Nat := (skb.data.getD 12 0).toNat / 16 * 4
def SkBuff.flags (skb : SkBuff) : Nat := (skb.data.getD 13 0).toNat
/-- The bytes after the header the packet claims to have. -/
def SkBuff.payload (skb : SkBuff) : List UInt8 := skb.data.drop skb.hdrLen

/-- `flags & mask`. -/
def SkBuff.has (skb : SkBuff) (mask : Nat) : Bool := skb.flags &&& mask ≠ 0

/-- What the allocators and the clock give one call. -/
structure Env where
  jiffies : Nat
  sock : Bool                          -- `kzalloc` of the socket succeeds
  rcvbuf : Option (Nat → UInt8)        -- `kmalloc` of its receive ring
  entry : Bool                         -- `kmalloc` of the accept entry

/-- `sk_alloc`. -/
def skAlloc (family type protocol : Nat) (rcvbuf : Option (Nat → UInt8)) : Sock where
  family := family
  type := type
  protocol := protocol
  state := .closed
  err := 0
  connected := false
  listening := false
  localIp := 0
  localPort := 0
  remoteIp := 0
  remotePort := 0
  rcvbuf := sockRingbufInit rcvbuf sockRcvbufSize
  backlogMax := sockBacklogMax
  backlogLen := 0
  sndSeq := 0
  sndUna := 0
  sndNxt := 0
  rcvSeq := 0
  rcvNxt := 0
  rcvWnd := 0

/-- The socket, what was sent, and the connection queued on a listener. -/
structure Outcome where
  sk : Sock
  sent : List Segment
  child : Option Sock

def Outcome.quiet (sk : Sock) : Outcome := ⟨sk, [], none⟩

/-- The socket a listener makes for a SYN. -/
def newSk (sk : Sock) (env : Env) (skb : SkBuff) : Sock :=
  { skAlloc sk.family sk.type sk.protocol env.rcvbuf with
    localIp := skb.dstPort        -- the port, stored as the address
    localPort := skb.dstPort
    remoteIp := skb.srcIp
    remotePort := skb.srcPort
    rcvSeq := skb.seq
    rcvNxt := add32 skb.seq 1
    sndSeq := env.jiffies * 6271 % word32
    sndNxt := add32 (env.jiffies * 6271 % word32) 1
    rcvWnd := sockRcvbufSize
    state := .synRcvd }

def inListen (sk : Sock) (env : Env) (skb : SkBuff) : Outcome :=
  if !skb.has tcpSyn then .quiet sk
  else if sk.backlogMax ≤ sk.backlogLen then .quiet sk
  else if !env.sock then .quiet sk
  else
    let child := newSk sk env skb
    let sent := [⟨tcpSyn ||| tcpAck, child.sndSeq, child.rcvNxt, 0⟩]
    if env.entry then ⟨{ sk with backlogLen := sk.backlogLen + 1 }, sent, some child⟩ else ⟨sk, sent, none⟩

def inSynSent (sk : Sock) (skb : SkBuff) : Outcome :=
  if skb.flags &&& (tcpSyn ||| tcpAck) = tcpSyn ||| tcpAck then
    ⟨{ sk with
        rcvSeq := skb.seq
        rcvNxt := add32 skb.seq 1
        sndUna := skb.ack
        state := .established
        connected := true }, [⟨tcpAck, sk.sndNxt, add32 skb.seq 1, 0⟩], none⟩
  else if skb.has tcpSyn then
    ⟨{ sk with rcvSeq := skb.seq, rcvNxt := add32 skb.seq 1, state := .synRcvd },
      [⟨tcpSyn ||| tcpAck, sk.sndSeq, add32 skb.seq 1, 0⟩], none⟩
  else .quiet sk

/-- `if (payload_len > 0) { sock_ringbuf_write; rcv_nxt += payload_len; send ACK }`. -/
def deliverData (sk : Sock) (skb : SkBuff) : Sock × List Segment :=
  if 0 < skb.payload.length then
    let rcvNxt := add32 sk.rcvNxt skb.payload.length
    ({ sk with rcvbuf := (sockRingbufWrite sk.rcvbuf skb.payload).1, rcvNxt := rcvNxt }, [⟨tcpAck, sk.sndNxt, rcvNxt, 0⟩])
  else (sk, [])

/-- `sk_rcv_nxt++` and its ACK. -/
def ackFin (sk : Sock) (state : TcpState) : Sock × Segment :=
  ({ sk with rcvNxt := add32 sk.rcvNxt 1, state := state }, ⟨tcpAck, sk.sndNxt, add32 sk.rcvNxt 1, 0⟩)

def inEstablished (sk : Sock) (skb : SkBuff) : Outcome :=
  let sk := if skb.has tcpAck then { sk with sndUna := skb.ack } else sk
  let d := deliverData sk skb
  if skb.has tcpFin then
    let f := ackFin d.1 .closeWait
    ⟨f.1, d.2 ++ [f.2], none⟩
  else ⟨d.1, d.2, none⟩

def inFinWait1 (sk : Sock) (skb : SkBuff) : Outcome :=
  let sk := if skb.has tcpAck then { sk with state := .finWait2 } else sk
  if skb.has tcpFin then
    let f := ackFin sk (if sk.state = .finWait2 then .timeWait else .closing)
    ⟨f.1, [f.2], none⟩
  else .quiet sk

def inFinWait2 (sk : Sock) (skb : SkBuff) : Outcome :=
  if skb.has tcpFin then
    let f := ackFin sk .timeWait
    ⟨f.1, [f.2], none⟩
  else .quiet sk

/-- `tcp_receive`, from the socket `inet_lookup` found. -/
def tcpInput (sk : Sock) (env : Env) (skb : SkBuff) : Outcome :=
  if skb.data.length < tcpHeaderSize then .quiet sk
  else if skb.has tcpRst then .quiet { sk with state := .closed, err := econnreset }
  else
    match sk.state with
    | .listen => inListen sk env skb
    | .synRcvd =>
      if skb.has tcpAck ∧ skb.ack = sk.sndNxt then .quiet { sk with state := .established, connected := true }
      else .quiet sk
    | .synSent => inSynSent sk skb
    | .established => inEstablished sk skb
    | .finWait1 => inFinWait1 sk skb
    | .finWait2 => inFinWait2 sk skb
    | .closing => .quiet (if skb.has tcpAck then { sk with state := .timeWait } else sk)
    | .lastAck => .quiet (if skb.has tcpAck then { sk with state := .closed } else sk)
    | .timeWait => .quiet { sk with state := .closed }
    | .closed => .quiet sk
    | .closeWait => .quiet sk

/-- `tcp_connect` up to its wait.  `port` is what `inet_alloc_port` returns, `sendOk` whether the SYN went out. -/
def tcpConnect (sk : Sock) (dstIp dstPort jiffies port : Nat) (sendOk : Bool) : Sock × Option Int :=
  if sk.state ≠ .closed then (sk, some (-eisconn))
  else if sk.localPort = 0 ∧ port = 0 then (sk, some (-eaddrinuse))
  else
    let sk := { sk with
      localPort := if sk.localPort = 0 then port else sk.localPort
      remoteIp := dstIp
      remotePort := dstPort
      sndSeq := jiffies * 7919 % word32
      sndNxt := add32 (jiffies * 7919 % word32) 1
      rcvWnd := sockRcvbufSize
      state := .synSent }
    (if sendOk then sk else { sk with state := .closed }, none)

def tcpListen (sk : Sock) : Sock × Int :=
  if sk.state ≠ .closed ∧ sk.state ≠ .closeWait then (sk, -einval)
  else ({ sk with listening := true, state := .listen }, 0)

def sockStream : Nat := 1
def eopnotsupp : Int := 95
def edestaddrreq : Int := 89

/-- `sys_listen`, from the socket on. -/
def sysListen (sk : Sock) (backlog : Int) : Sock × Int :=
  if sk.type ≠ sockStream then (sk, -eopnotsupp)
  else if sk.localPort = 0 then (sk, -edestaddrreq)
  else tcpListen { sk with backlogMax := if (sockBacklogMax : Int) < backlog then sockBacklogMax else backlog }

/-- `tcp_close` up to its wait: whether it waits, and the FIN. -/
def tcpClose (sk : Sock) : Sock × List Segment × Bool :=
  if sk.state = .closed then (sk, [], false)
  else if sk.state = .established ∨ sk.state = .synRcvd then
    ({ sk with sndNxt := add32 sk.sndNxt 1, state := .finWait1 }, [⟨tcpFin ||| tcpAck, sk.sndNxt, sk.rcvNxt, 0⟩], true)
  else if sk.state = .closeWait then
    ({ sk with sndNxt := add32 sk.sndNxt 1, state := .lastAck }, [⟨tcpFin ||| tcpAck, sk.sndNxt, sk.rcvNxt, 0⟩], false)
  else (sk, [], false)

/-- The end of the wait in `tcp_close`. -/
def tcpCloseDone (sk : Sock) : Sock := { sk with state := .closed }

/-- One chunk of `tcp_send_data` that went out. -/
def sendChunk (sk : Sock) (chunk : Nat) : Sock × Segment :=
  ({ sk with sndNxt := add32 sk.sndNxt chunk }, ⟨tcpPsh ||| tcpAck, sk.sndNxt, sk.rcvNxt, chunk⟩)

/-- **What a packet does to the receive ring**: a data segment of an established connection is written to it, any other
packet leaves it alone. -/
theorem tcpInput_rcvbuf (sk : Sock) (env : Env) (skb : SkBuff) :
    (tcpInput sk env skb).sk.rcvbuf =
      if tcpHeaderSize ≤ skb.data.length ∧ skb.has tcpRst = false ∧ sk.state = .established ∧ 0 < skb.payload.length
      then (sockRingbufWrite sk.rcvbuf skb.payload).1 else sk.rcvbuf := by
  unfold tcpInput
  by_cases hlen : skb.data.length < tcpHeaderSize
  · rw [if_pos hlen, if_neg (fun h => absurd h.1 (Nat.not_le_of_lt hlen))]
    rfl
  rw [if_neg hlen]
  cases hrst : skb.has tcpRst with
  | true => simp [Outcome.quiet]
  | false =>
    simp only [Nat.le_of_not_lt hlen, true_and, Bool.false_eq_true, if_false]
    cases hst : sk.state with
    | established =>
      simp only [true_and, inEstablished, deliverData, ackFin]
      by_cases hp : 0 < skb.payload.length
      · simp only [if_pos hp]
        split <;> split <;> rfl
      · simp only [if_neg hp]
        split <;> split <;> rfl
    | listen =>
      simp only [inListen, reduceCtorEq, false_and, if_false]
      split
      · rfl
      · split
        · rfl
        · split
          · rfl
          · split <;> rfl
    | synSent =>
      simp only [inSynSent, reduceCtorEq, false_and, if_false]
      split
      · rfl
      · split <;> rfl
    | synRcvd =>
      simp only [reduceCtorEq, false_and, if_false]
      split <;> rfl
    | finWait1 =>
      simp only [inFinWait1, ackFin, reduceCtorEq, false_and, if_false]
      split <;> split <;> rfl
    | finWait2 =>
      simp only [inFinWait2, ackFin, reduceCtorEq, false_and, if_false]
      split <;> rfl
    | closing =>
      simp only [reduceCtorEq, false_and, if_false, Outcome.quiet]
      split <;> rfl
    | lastAck =>
      simp only [reduceCtorEq, false_and, if_false, Outcome.quiet]
      split <;> rfl
    | timeWait => simp [Outcome.quiet]
    | closed => simp [Outcome.quiet]
    | closeWait => simp [Outcome.quiet]

end Net
end Pico
