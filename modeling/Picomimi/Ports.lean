import Picomimi.Tcp
import Picomimi.Lib.Holders
/-!
# Ports — the local ports of the sockets

The calls that give a socket its port, and those that give it back.  `inet_alloc_port` marks what it hands out in both
bitmaps, `sys_bind` to a port of the caller's choice looks at neither, and only `tcp_close` clears a mark, unless the
connection is in `TCP_CLOSED`.  Closing the descriptor clears none: `fput` frees the file and never comes to
`socket_file_release`, its caller there.  What comes in from the network is left open: any packet for a socket's port.  The `frees`
of a state are not in the source: they are the ports `inet_free_port` was called for.
-/
namespace Pico
namespace Ports

open Lib Net

def afInet : Nat := 2
def sockDgram : Nat := 2
def ipprotoTcp : Nat := 6
def ipprotoUdp : Nat := 17
def ephemeralPortLow : Nat := 32768
def ephemeralPortHigh : Nat := 60999

/-- `socket_t.state`; nothing else reads it. -/
inductive SocketState where
  | unconnected | connecting | connected
deriving DecidableEq

/-- A socket with a descriptor. -/
structure Socket where
  state : SocketState
  sk : Sock
  shutdownWr : Bool
  queue : List Sock           -- `sk_accept_queue`

structure State where
  socks : Nat → Option Socket
  tcp : Nat → Bool            -- `tcp_port_bitmap`
  udp : Nat → Bool            -- `udp_port_bitmap`
  next : Nat                  -- `next_eph_port`
  frees : List Nat

def State.set (s : State) (i : Nat) (k : Option Socket) : State := { s with socks := Function.update s.socks i k }

/-! ## The bitmaps -/

def nextPort (port : Nat) : Nat := if ephemeralPortHigh < port + 1 then ephemeralPortLow else port + 1

/-- The loop of `inet_alloc_port`. -/
def allocLoop (tcp : Nat → Bool) : Nat → Nat → Option Nat × Nat
  | 0, next => (none, next)
  | n + 1, next => if tcp next = false then (some next, nextPort next) else allocLoop tcp n (nextPort next)

/-- `inet_alloc_port`. -/
def inetAllocPort (s : State) : Option Nat × State :=
  match allocLoop s.tcp (ephemeralPortHigh - ephemeralPortLow) s.next with
  | (none, next) => (none, { s with next := next })
  | (some port, next) =>
    (some port, { s with
      next := next
      tcp := Function.update s.tcp port true
      udp := Function.update s.udp port true })

/-- `inet_free_port`. -/
def inetFreePort (s : State) (port : Nat) : State :=
  if port = 0 then s
  else { s with
    tcp := Function.update s.tcp port false
    udp := Function.update s.udp port false
    frees := port :: s.frees }

/-! ## The calls -/

/-- `sys_socket`, for `AF_INET`. -/
def sysSocket (type protocol : Nat) (rcvbuf : Option (Nat → UInt8)) : Socket where
  state := .unconnected
  sk := skAlloc afInet type (if protocol = 0 then if type = sockStream then ipprotoTcp else ipprotoUdp else protocol) rcvbuf
  shutdownWr := false
  queue := []

def Socket.setPort (k : Socket) (port : Nat) : Socket := { k with sk := { k.sk with localPort := port } }

/-- `sys_bind` to an `AF_INET` address. -/
def sysBind (s : State) (i : Nat) (k : Socket) (ip port : Nat) : State :=
  let k := { k with sk := { k.sk with localIp := ip, localPort := port } }
  if port = 0 then
    match inetAllocPort s with
    | (none, s) => s.set i (some k)
    | (some port, s) => s.set i (some { k.setPort port with state := .unconnected })
  else s.set i (some { k with state := .unconnected })

/-- `tcp_connect` on a socket that has its port; `after` is the state its wait ends in. -/
def connectStream (k : Socket) (ip port jiffies : Nat) (sendOk : Bool) (after : TcpState) : Socket :=
  match tcpConnect k.sk ip port jiffies 0 sendOk with
  | (sk, some _) => { k with sk := sk, state := .unconnected }
  | (sk, none) =>
    if sendOk then
      if after = .established then { k with sk := { sk with state := after, connected := true }, state := .connected }
      else { k with sk := { sk with state := after }, state := .unconnected }
    else { k with sk := sk, state := .unconnected }

def connectSk (k : Socket) (ip port jiffies : Nat) (sendOk : Bool) (after : TcpState) : Socket :=
  if k.sk.type = sockStream then connectStream k ip port jiffies sendOk after
  else { k with sk := { k.sk with remoteIp := ip, remotePort := port, connected := true }, state := .connected }

/-- `sys_connect`. -/
def sysConnect (s : State) (i : Nat) (k : Socket) (ip port jiffies : Nat) (sendOk : Bool) (after : TcpState) : State :=
  if k.sk.localPort = 0 then
    match inetAllocPort s with
    | (none, s) => s
    | (some p, s) => s.set i (some (connectSk (k.setPort p) ip port jiffies sendOk after))
  else s.set i (some (connectSk k ip port jiffies sendOk after))

/-- `sys_sendto` of a datagram: what it does to the port. -/
def sysSendto (s : State) (i : Nat) (k : Socket) : State :=
  if k.sk.type = sockDgram ∧ k.sk.localPort = 0 then
    match inetAllocPort s with
    | (none, s) => s
    | (some p, s) => s.set i (some (k.setPort p))
  else s

def listen (k : Socket) (backlog : Int) : Socket :=
  match sysListen k.sk backlog with
  | (sk, r) => { k with sk := sk, state := if r = 0 then .connected else k.state }

/-- `tcp_close`, its wait over: the socket, and whether it came to `inet_free_port`. -/
def tcpClosed (sk : Sock) : Sock × Bool :=
  if sk.state = .closed then (sk, false)
  else
    let r := tcpClose sk
    (if r.2.2 then tcpCloseDone r.1 else r.1, true)

def freeAfter (s : State) (port : Nat) (free : Bool) : State := if free then inetFreePort s port else s

/-- `sys_shutdown` of the write side. -/
def sysShutdown (s : State) (i : Nat) (k : Socket) : State :=
  let k := { k with shutdownWr := true }
  if k.sk.type = sockStream then
    let r := tcpClosed k.sk
    (freeAfter s k.sk.localPort r.2).set i (some { k with sk := r.1 })
  else s.set i (some k)

/-- `tcp_accept` takes the head of the queue. -/
def Socket.dequeue (k : Socket) (queue : List Sock) : Socket :=
  { k with queue := queue, sk := { k.sk with backlogLen := k.sk.backlogLen - 1 } }

/-- The first of the accept queue, with a descriptor if there is one for it. -/
def sysAccept (s : State) (i : Nat) (k : Socket) (j : Option Nat) : Option State :=
  if k.sk.type = sockStream ∧ k.sk.state = .listen then
    match k.queue with
    | [] => none
    | c :: queue =>
      let s := s.set i (some (k.dequeue queue))
      match j with
      | none => some s
      | some j => if s.socks j = none then some (s.set j (some ⟨.connected, c, false, []⟩)) else none
  else none

/-- A packet `inet_lookup` has found the socket for. -/
def input (k : Socket) (skb : SkBuff) (env : Env) : Socket :=
  let o := tcpInput k.sk env skb
  { k with sk := o.sk, queue := k.queue ++ o.child.toList }

/-- One for a connection that waits to be accepted. -/
def inputQueued (k : Socket) (n : Nat) (skb : SkBuff) (env : Env) : Socket :=
  { k with queue := k.queue.modify n fun c => (tcpInput c env skb).sk }

inductive Label where
  | socket (i type protocol : Nat) (rcvbuf : Option (Nat → UInt8))
  | bind (i ip port : Nat)
  | connect (i ip port jiffies : Nat) (sendOk : Bool) (after : TcpState)
  | sendto (i : Nat)
  | listen (i : Nat) (backlog : Int)
  | accept (i : Nat) (j : Option Nat)
  | segment (i : Nat) (skb : SkBuff) (env : Env)
  | queued (i n : Nat) (skb : SkBuff) (env : Env)
  | shutdown (i : Nat)
  | close (i : Nat)           -- of the last descriptor

def step (s : State) : Label → Option State
  | .socket i type protocol rcvbuf => if s.socks i = none then some (s.set i (some (sysSocket type protocol rcvbuf))) else none
  | .bind i ip port => (s.socks i).map fun k => sysBind s i k ip port
  | .connect i ip port jiffies sendOk after => (s.socks i).map fun k => sysConnect s i k ip port jiffies sendOk after
  | .sendto i => (s.socks i).map fun k => sysSendto s i k
  | .listen i backlog => (s.socks i).map fun k => s.set i (some (listen k backlog))
  | .accept i j => (s.socks i).bind fun k => sysAccept s i k j
  | .segment i skb env => (s.socks i).bind fun k =>
      if k.sk.protocol % 256 = ipprotoTcp ∧ skb.dstPort = k.sk.localPort then some (s.set i (some (input k skb env)))
      else none
  | .queued i n skb env => (s.socks i).map fun k => s.set i (some (inputQueued k n skb env))
  | .shutdown i => (s.socks i).map fun k => sysShutdown s i k
  | .close i => (s.socks i).map fun _ => s.set i none

/-- `net_init`. -/
def boot : State := ⟨fun _ => none, fun _ => false, fun _ => false, ephemeralPortLow, []⟩

def machine : Machine State Label where
  init s := s = boot
  step := step

/-! ## What should hold -/

/-- Shut down by its owner, and in `TCP_CLOSED`. -/
def Socket.Closed (k : Socket) : Prop := k.sk.type = sockStream ∧ k.shutdownWr = true ∧ k.sk.state = .closed

instance (k : Socket) : Decidable k.Closed := inferInstanceAs (Decidable (_ ∧ _ ∧ _))

/-- The port a socket holds until it is closed. -/
def Socket.held (k : Socket) : Option Nat := if k.sk.localPort = 0 ∨ k.Closed then none else some k.sk.localPort

/-- A listening socket, or an unconnected one. -/
def Socket.Open (k : Socket) : Prop := k.sk.listening = true ∨ k.state = .unconnected

def State.held (s : State) (i : Nat) : Option Nat := (s.socks i).bind Socket.held

/-- No other open socket of the protocol holds the port. -/
def Apart (s : State) (i : Nat) (k : Socket) : Prop :=
  k.Open → ∀ p ∈ k.held, ∀ j ≠ i, ∀ l ∈ s.socks j, l.Open → l.sk.protocol = k.sk.protocol → l.held ≠ some p

/-- **The law of the ports.** -/
structure Law (s : State) : Prop where
  apart : ∀ i, ∀ k ∈ s.socks i, Apart s i k
  tcp : Exact s.tcp s.held
  udp : Exact s.udp s.held

/-- **What a step must keep**: the law, and that only a marked port is given back. -/
def Kept (s : State) (a : Label) : Prop :=
  ∀ s', step s a = some s' → Law s' ∧ ∀ p, s'.frees = p :: s.frees → s.tcp p = true

/-- Every port `inet_alloc_port` tries is marked. -/
def State.Exhausted (s : State) : Prop := ∀ n < ephemeralPortHigh - ephemeralPortLow, s.tcp (nextPort^[n] s.next) = true

/-- What the socket holds another holds too. -/
def Parts (s : State) (i : Nat) (k : Socket) : Prop := ∀ p, k.held = some p → HeldElse s.held i p

/-- No other open socket of the protocol holds `p`. -/
def NoOpen (s : State) (i protocol p : Nat) : Prop :=
  ∀ j ≠ i, ∀ l ∈ s.socks j, l.Open → l.sk.protocol = protocol → l.held ≠ some p

/-- A connect that leaves the socket listening or unconnected. -/
def Reopens (k : Socket) (sendOk : Bool) (after : TcpState) : Prop :=
  k.sk.listening = true ∨
    k.sk.type = sockStream ∧ ¬(k.sk.state = .closed ∧ sendOk = true ∧ after = .established)

/-- A bind that takes nothing nobody has marked, and leaves nothing marked behind. -/
def BindOk (s : State) (i port : Nat) (k : Socket) : Prop :=
  if k.Closed then port = 0 → s.Exhausted
  else if port = 0 then Parts s i k
  else (k.sk.localPort = port ∨ Parts s i k ∧ HeldElse s.held i port) ∧ NoOpen s i k.sk.protocol port

/-- A connect that does not bring a closed socket back to a port it has given up. -/
def ConnectOk (s : State) (i : Nat) (k : Socket) (sendOk : Bool) (after : TcpState) : Prop :=
  if k.Closed ∧ (sendOk = true → after = .closed) then k.sk.localPort = 0 → s.Exhausted
  else k.sk.localPort ≠ 0 → (k.Closed → HeldElse s.held i k.sk.localPort) ∧
    (Reopens k sendOk after → NoOpen s i k.sk.protocol k.sk.localPort)

def ListenOk (s : State) (i : Nat) (k : Socket) : Prop :=
  k.sk.type = sockStream → k.sk.localPort ≠ 0 → k.sk.state = .closed ∨ k.sk.state = .closeWait →
    (k.Closed → HeldElse s.held i k.sk.localPort) ∧ NoOpen s i k.sk.protocol k.sk.localPort

/-- The write side of a connection that is up, and alone on its port. -/
def ShutdownOk (s : State) (i : Nat) (k : Socket) : Prop :=
  k.sk.type = sockStream → k.sk.localPort ≠ 0 → ¬k.Closed →
    if k.sk.state = .closed then HeldElse s.held i k.sk.localPort
    else (k.sk.state = .established ∨ k.sk.state = .synRcvd) ∧ ¬HeldElse s.held i k.sk.localPort

/-- **The steps that come out right.** -/
def PortOk (s : State) : Label → Prop
  | .bind i _ port => ∀ k ∈ s.socks i, BindOk s i port k
  | .connect i _ _ _ sendOk after => ∀ k ∈ s.socks i, ConnectOk s i k sendOk after
  | .listen i _ => ∀ k ∈ s.socks i, ListenOk s i k
  | .accept i j => ∀ k ∈ s.socks i, k.sk.type = sockStream → k.sk.state = .listen → ∀ j' ∈ j, s.socks j' = none →
      ∀ c ∈ k.queue.head?, c.localPort ≠ 0 → Held s.held c.localPort
  | .segment i skb env => ∀ k ∈ s.socks i, k.sk.protocol % 256 = ipprotoTcp → skb.dstPort = k.sk.localPort →
      k.sk.type = sockStream → k.shutdownWr = true → k.sk.state ≠ .closed → (tcpInput k.sk env skb).sk.state = .closed →
        k.sk.localPort ≠ 0 → HeldElse s.held i k.sk.localPort
  | .shutdown i => ∀ k ∈ s.socks i, ShutdownOk s i k
  | .close i => ∀ k ∈ s.socks i, Parts s i k
  | _ => True

end Ports
end Pico
