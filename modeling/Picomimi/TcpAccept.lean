import Picomimi.SockTable
/-!
# TcpAccept — the accept queue of a listening socket

`tcp_receive` queues a connection on its SYN, before the handshake is over, and `tcp_accept` takes the first entry whatever
its state.  But a SYN has to be looked up first, and no listening socket is in `sock_table`: nothing is ever queued.  What is
left of the law of the queue is its bound, and `sys_listen` takes a negative one as it is (`acceptLaw_iff`).
-/
namespace Pico
namespace Net

open Lib

/-- A listening socket and the sockets made for it, with the table they are looked up in.  A connection is named by its place
among them. -/
structure Listener where
  sk : Sock
  children : List Sock
  queue : List Nat          -- `sk_accept_queue`
  accepted : List Nat       -- what `tcp_accept` has returned, the oldest first
  completed : List Nat      -- the handshakes that are over, in their order
  table : Nat → Option Nat  -- `sock_table`: 0 is the listener, `i + 1` connection `i`

/-- The socket under a number of the table. -/
def Listener.sock (s : Listener) : Nat → Option Sock
  | 0 => some s.sk
  | i + 1 => s.children[i]?

/-- `inet_lookup` of a segment. -/
def Listener.lookup (s : Listener) (skb : SkBuff) : Option Nat :=
  SockTable.inetLookup
    ⟨{ Ports.boot with socks := fun i => (s.sock i).map fun sk => ⟨.connected, sk, false, []⟩ }, s.table⟩
    ⟨Ports.ipprotoTcp, skb.srcIp, skb.srcPort, skb.dstIp, skb.dstPort⟩

/-- `tcp_receive` for the listener: what it queues. -/
def Listener.input (s : Listener) (skb : SkBuff) (env : Env) : Listener :=
  let o := tcpInput s.sk env skb
  match o.child with
  | none => { s with sk := o.sk }
  | some c => { s with sk := o.sk, children := s.children ++ [c], queue := s.queue ++ [s.children.length] }

/-- `tcp_receive` for one of its connections. -/
def Listener.inputChild (s : Listener) (i : Nat) (c : Sock) (skb : SkBuff) (env : Env) : Listener :=
  let o := tcpInput c env skb
  { s with
    children := s.children.set i o.sk
    completed := if c.state = .synRcvd ∧ o.sk.state = .established then s.completed ++ [i] else s.completed }

/-- `tcp_accept`, one turn of its loop: the entry it takes. -/
def tcpAccept (s : Listener) : Listener × Option Nat :=
  match s.queue with
  | [] => (s, none)
  | i :: rest => ({ s with queue := rest, sk := { s.sk with backlogLen := s.sk.backlogLen - 1 } }, some i)

inductive AcceptLabel where
  | segment (skb : SkBuff) (env : Env)
  | accept

/-- One step: a packet arrives, or a `tcp_accept`. -/
def acceptStep (s : Listener) : AcceptLabel → Option Listener
  | .segment skb env =>
    match s.lookup skb with
    | none => some s          -- answered with a reset
    | some 0 => some (s.input skb env)
    | some (i + 1) => (s.children[i]?).map fun c => s.inputChild i c skb env
  | .accept =>
    let r := tcpAccept s
    some { r.1 with accepted := s.accepted ++ r.2.toList }

/-- A socket that `sys_listen` has just made to listen, in the kernel `net_init` has set up. -/
def acceptMachine (backlog : Int) : Machine Listener AcceptLabel where
  init s := (∃ sk, sk.backlogLen = 0 ∧ sysListen sk backlog = (s.sk, 0)) ∧
    s.children = [] ∧ s.queue = [] ∧ s.accepted = [] ∧ s.completed = [] ∧ s.table = fun _ => none
  step := acceptStep

/-- `ESTABLISHED` or later; a connection may have been reset since. -/
def TcpState.Opened (st : TcpState) : Prop := st ≠ .listen ∧ st ≠ .synSent ∧ st ≠ .synRcvd

/-- Connection `i` completed before connection `j`. -/
def Listener.Before (s : Listener) (i j : Nat) : Prop := s.completed.idxOf i < s.completed.idxOf j

/-- **The law of the accept queue**, for the maximum given to `listen`. -/
structure AcceptLaw (backlog : Int) (s : Listener) : Prop where
  done : ∀ i ∈ s.accepted, i ∈ s.completed ∧ ∃ c, s.children[i]? = some c ∧ c.state.Opened
  order : s.accepted.Pairwise s.Before
  once : s.accepted.Nodup
  len : s.sk.backlogLen = s.queue.length
  max : s.sk.backlogLen ≤ backlog

/-- Nobody has found the listener. -/
structure Untouched (s : Listener) : Prop where
  len : s.sk.backlogLen = 0
  queue : s.queue = []
  accepted : s.accepted = []
  table : s.table = fun _ => none

variable {backlog : Int} {s s' : Listener}

theorem tcpListen_backlogLen (sk : Sock) : (tcpListen sk).1.backlogLen = sk.backlogLen := by
  unfold tcpListen
  split <;> rfl

theorem sysListen_backlogLen (sk : Sock) (backlog : Int) : (sysListen sk backlog).1.backlogLen = sk.backlogLen := by
  unfold sysListen
  split
  · rfl
  split
  · rfl
  · exact tcpListen_backlogLen _

theorem Untouched.start (h : (acceptMachine backlog).init s) : Untouched s := by
  obtain ⟨⟨sk, hlen, hlisten⟩, -, hqueue, haccepted, -, htable⟩ := h
  have hsk := sysListen_backlogLen sk backlog
  rw [hlisten] at hsk
  exact ⟨hsk.trans hlen, hqueue, haccepted, htable⟩

/-- **A packet is not for it, and there is nothing to accept.** -/
theorem Untouched.step (h : Untouched s) {x : AcceptLabel} (hs : (acceptMachine backlog).step s x = some s') : Untouched s' := by
  cases x with
  | segment skb env =>
    have hnone : s.lookup skb = none := SockTable.inetLookup_empty h.table _
    simp only [acceptMachine, acceptStep, hnone] at hs
    cases hs
    exact h
  | accept =>
    have hnone : tcpAccept s = (s, none) := by
      unfold tcpAccept
      rw [h.queue]
    simp only [acceptMachine, acceptStep, hnone] at hs
    cases hs
    exact ⟨h.len, h.queue, (List.append_nil _).trans h.accepted, h.table⟩

theorem Untouched.law_iff (h : Untouched s) : AcceptLaw backlog s ↔ 0 ≤ backlog := by
  constructor
  · intro hlaw
    exact h.len ▸ hlaw.max
  · intro hb
    refine ⟨?_, ?_, ?_, ?_, ?_⟩
    · rw [h.accepted]
      exact nofun
    · rw [h.accepted]
      exact .nil
    · rw [h.accepted]
      exact .nil
    · rw [h.len, h.queue]
      rfl
    · rw [h.len]
      exact hb

theorem Untouched.always (hb : 0 ≤ backlog) : ∀ (l : List AcceptLabel) (s : Listener), Untouched s →
    (acceptMachine backlog).Always (AcceptLaw backlog) s l
  | [], _, h => h.law_iff.2 hb
  | _ :: l, _, h => ⟨h.law_iff.2 hb, fun t ht => Untouched.always hb l t (h.step ht)⟩

/-- **The law of the accept queue holds throughout a run exactly when the maximum given to `listen` is not negative.** -/
theorem acceptLaw_iff (backlog : Int) (l : List AcceptLabel) (s : Listener) (h : (acceptMachine backlog).init s) :
    (acceptMachine backlog).Always (AcceptLaw backlog) s l ↔ 0 ≤ backlog :=
  ⟨fun hall => (Untouched.start h).law_iff.1 (Machine.Always.head _ hall), fun hb => Untouched.always hb l s (.start h)⟩

/-! ## A server -/

/-- A stream socket bound to port 80. -/
def bound : Sock := { skAlloc 2 sockStream 6 none with localPort := 80 }

/-- A SYN for it from port 7 of 10.0.0.1. -/
def synPacket : SkBuff := ⟨[0, 7, 0, 80] ++ List.replicate 8 0 ++ [0x50, 2] ++ List.replicate 6 0, 0x0A000001, 0x0A000002⟩

def listenerOf (backlog : Int) : Listener := ⟨(sysListen bound backlog).1, [], [], [], [], fun _ => none⟩

/-- A SYN arrives, and the server accepts. -/
theorem acceptLaw_two : (acceptMachine 2).Always (AcceptLaw 2) (listenerOf 2) [.segment synPacket ⟨0, true, none, true⟩, .accept] :=
  (acceptLaw_iff 2 _ _ ⟨⟨bound, rfl, rfl⟩, rfl, rfl, rfl, rfl, rfl⟩).2 (by decide)

/-- **`listen` with -1**: no connection is queued, and that is more than the maximum. -/
theorem not_acceptLaw : ¬∀ (backlog : Int) (l : List AcceptLabel) (s : Listener), (acceptMachine backlog).init s →
    (acceptMachine backlog).Always (AcceptLaw backlog) s l := by
  intro h
  have hmax := (h (-1) [] (listenerOf (-1)) ⟨⟨bound, rfl, rfl⟩, rfl, rfl, rfl, rfl, rfl⟩).max
  revert hmax
  decide

end Net
end Pico
