import Picomimi.NetCore
/-!
# UdpLoop — datagrams over the loopback device

What two sockets of one machine should see when one sends to the other: each send reports the length of its payload, and
each receive returns one payload and the sender's address.  They never do (`not_roundTrip`): no `udp_send` gets past
`ip_send`.
-/
namespace Pico
namespace NetCore

open Lib Net Ports

def eagain : Int := 11

/-- What `sys_recvfrom` returns: the bytes, with an address if one was asked for, or a number. -/
inductive Received where
  | data (bytes : List UInt8) (src : Option (Nat × Nat))
  | ret (r : Int)

/-- `sys_recvfrom`: one turn of its loop, the last. -/
def sysRecvfrom (k : Socket) (n : Nat) (peek src : Bool) : Received × Socket :=
  let r := sockRingbufRead k.sk.rcvbuf (n % word32) peek
  if r.2 ≠ [] then
    (.data r.2 (if src ∧ k.sk.family = afInet then some (k.sk.remoteIp, k.sk.remotePort) else none),
      { k with sk := { k.sk with rcvbuf := r.1 } })
  else if k.sk.state = .closed then (.ret 0, k)
  else (.ret (-eagain), k)

/-- Two sockets on a machine whose only device is `lo`, and what is to go from the one to the other. -/
structure Exchange where
  answers : Answers
  rx : Handlers
  stack : Stack
  sender : Nat
  receiver : Nat
  first : List UInt8
  rest : List (List UInt8)
  room : Nat                  -- the buffer of each receive

namespace Exchange

variable (x : Exchange)

def payloads : List (List UInt8) := x.first :: x.rest

/-- The address a socket is reached at. -/
def addr (k : Socket) : Nat := if k.sk.localIp = 0 then inaddrLoopback else k.sk.localIp

/-- A UDP socket of the machine. -/
structure Udp (k : Socket) : Prop where
  family : k.sk.family = afInet
  type : k.sk.type = sockDgram
  protocol : k.sk.protocol = ipprotoUdp
  here : addr k / 16777216 = 127

/-- **What the exchange asks for**: two UDP sockets, the receiver bound and with room, and payloads that fit a datagram. -/
structure Ready : Prop where
  alloc : ∀ n, (x.answers.alloc n).isSome
  ne : x.sender ≠ x.receiver
  sockets : ∃ k l, x.stack.sock x.sender = some k ∧ x.stack.sock x.receiver = some l ∧ Udp k ∧ Udp l ∧
    l.sk.localPort ≠ 0 ∧ l.sk.rcvbuf.bytes = [] ∧ x.payloads.flatten.length ≤ l.sk.rcvbuf.size
  bound : ∃ calls ip port, SockTable.machine.run ⟨boot, fun _ => none⟩ calls = some x.stack.sockets ∧
    .bind x.receiver ip port ∈ calls
  fits : ∀ p ∈ x.payloads, p ≠ [] ∧ p.length + 28 ≤ 65535 ∧ p.length ≤ x.room

/-- The sends, each of which reports the length of its payload. -/
def sendAll (k l : Socket) : List (List UInt8) → Stack → Option Stack
  | [], s => some s
  | p :: ps, s =>
    match udpSend [loDev x.answers x.rx] x.answers k.sk p (addr l) l.sk.localPort s with
    | none => none
    | some (r, s) => if r = p.length then sendAll k l ps s else none

/-- The receives, each of which returns the next payload and where it came from. -/
def RecvAll (k : Socket) : List (List UInt8) → Socket → Prop
  | [], _ => True
  | p :: ps, l =>
    let r := sysRecvfrom l x.room false true
    r.1 = .data p (some (addr k, k.sk.localPort)) ∧ RecvAll k ps r.2

/-- **The round trip.** -/
def RoundTrip : Prop := ∃ k l s l', x.stack.sock x.sender = some k ∧ x.stack.sock x.receiver = some l ∧
  x.sendAll k l x.payloads x.stack = some s ∧ s.sock x.receiver = some l' ∧ x.RecvAll k x.payloads l'

end Exchange

variable (x : Exchange)

/-- **Nothing is ever exchanged**: the first send reports an error. -/
theorem not_roundTrip : ¬x.RoundTrip := by
  rintro ⟨k, l, s, l', -, -, hsent, -⟩
  simp only [Exchange.payloads, Exchange.sendAll] at hsent
  split at hsent
  · cases hsent
  · rename_i r s₁ hsend
    have hneg : r < 0 := (udpSend_fails k.sk x.first _ _ _ hsend).1
    rw [if_neg (by omega)] at hsent
    cases hsent

/-- A socket with an empty ring of 64 KB. -/
def udpSocket : Socket := sysSocket sockDgram 0 (some fun _ => 0)

def twoSockets : Ports.State :=
  sysBind ((boot.set 0 (some udpSocket)).set 1 (some udpSocket)) 1 udpSocket inaddrLoopback 5000

/-- Memory for everyone, and one byte to send from socket 0 to port 5000. -/
def oneByte : Exchange where
  answers := ⟨fun _ => some fun _ => 0, fun _ => none⟩
  rx := ⟨fun _ s => s, fun _ s => s, fun _ s => s⟩
  stack := ⟨⟨twoSockets, fun _ => none⟩, bootCache, 0x1234⟩
  sender := 0
  receiver := 1
  first := [65]
  rest := []
  room := 2048

theorem ready_oneByte : oneByte.Ready where
  alloc _ := rfl
  ne := by decide
  sockets := ⟨_, _, rfl, rfl, ⟨rfl, rfl, rfl, rfl⟩, ⟨rfl, rfl, rfl, rfl⟩, by decide, rfl, by decide⟩
  bound := ⟨[.socket 0 sockDgram 0 (some fun _ => 0), .socket 1 sockDgram 0 (some fun _ => 0),
    .bind 1 inaddrLoopback 5000], _, _, rfl, List.mem_cons_of_mem _ (List.mem_cons_of_mem _ (List.mem_singleton.2 rfl))⟩
  fits p hp := by
    cases List.mem_singleton.1 hp
    decide

/-- **Not one byte gets through.** -/
theorem ready_not_roundTrip : ¬∀ y : Exchange, y.Ready → y.RoundTrip := by
  intro h
  obtain ⟨k, l, s, l', hk, hl, hsent, -⟩ := h oneByte ready_oneByte
  cases hk
  cases hl
  cases hsent

end NetCore
end Pico
