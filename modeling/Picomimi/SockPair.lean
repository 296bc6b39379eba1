import Picomimi.Files
import Picomimi.UdpLoop
/-!
# SockPair — the two ends of `sys_socketpair`

The pair is connected through `sk_peer`, which no send looks at: a stream goes to `tcp_send_data`, a datagram to
`udp_send`, and neither reports a byte as sent (`NetCore.tcpSendSegment_fails`).  Only `sys_write` does, on descriptors 1
and 2, which it takes for the console whatever they are; what it reports there never reaches the other end.  A send of a
stream is in the loop of `tcp_send_data` for as many turns as it has segments, with any other call between two of them.
What was `reported` as sent and what was `received` is not in the source.
-/
namespace Pico
namespace SockPair

open Lib Net NetCore

def afUnix : Nat := 1
def etimedout : Int := 110
def tcpMss : Nat := 1460

/-- A call of `tcp_send_data` in its loop. -/
structure Sending where
  side : Bool
  data : List UInt8
  sent : Nat

structure State where
  stack : Stack
  sock : Bool → Nat             -- the socket of each end
  fd : Bool → Nat               -- `sv`
  calls : Nat → Option Sending  -- by thread
  reported : Bool → List UInt8
  received : Bool → List UInt8

def State.setCall (s : State) (t : Nat) (c : Option Sending) : State := { s with calls := Function.update s.calls t c }

def State.setSock (s : State) (i : Nat) (k : Ports.Socket) : State := { s with stack := s.stack.setSock i k }

/-- A call that sends `data` returns `r`. -/
def State.report (s : State) (e : Bool) (data : List UInt8) (r : Int) : State :=
  if r < 0 then s else { s with reported := Function.update s.reported e (s.reported e ++ data.take r.toNat) }

/-- A call that receives returns. -/
def State.receive (s : State) (e : Bool) : Received → State
  | .data bytes _ => { s with received := Function.update s.received e (s.received e ++ bytes) }
  | .ret _ => s

/-! ## The pair -/

/-- One end; `type` is without its flags. -/
def pairEnd (domain type protocol : Nat) (rcvbuf : Option (Nat → UInt8)) : Ports.Socket where
  state := .connected
  sk := { skAlloc domain type protocol rcvbuf with state := .established, connected := true }
  shutdownWr := false
  queue := []

/-- The two descriptors; `f` is the file of the first. -/
def pairFds (F : Files.State) (task f : Nat) : Option (Nat × Nat) :=
  match Files.getUnusedFd F task with
  | (none, _) => none
  | (some fd, F) =>
    match Files.getUnusedFd (Files.fdInstall F task fd f) task with
    | (none, _) => none
    | (some fd', _) => some (fd, fd')

/-- `sys_socketpair` that succeeds. -/
def sysSocketpair (F : Files.State) (task f : Nat) (stack : Stack) (i j domain type protocol : Nat)
    (rcvbuf rcvbuf' : Option (Nat → UInt8)) : Option State :=
  if (domain = afUnix ∨ domain = Ports.afInet) ∧ i ≠ j ∧ (stack.sock i).isNone ∧ (stack.sock j).isNone then
    (pairFds F task f).map fun fds =>
      { stack := (stack.setSock i (pairEnd domain type protocol rcvbuf)).setSock j (pairEnd domain type protocol rcvbuf')
        sock := fun e => if e then j else i
        fd := fun e => if e then fds.2 else fds.1
        calls := fun _ => none
        reported := fun _ => []
        received := fun _ => [] }
  else none

/-! ## The calls -/

/-- `tcp_send_data` up to its loop. -/
def tcpSendData (s : State) (t : Nat) (e : Bool) (k : Ports.Socket) (data : List UInt8) : State :=
  if k.sk.state ≠ .established then s      -- -ENOTCONN
  else if k.shutdownWr then s              -- -EPIPE
  else s.setCall t (some ⟨e, data.take (data.length % word32), 0⟩)

/-- What the network and the allocator are during a call. -/
structure Around where
  devs : List NetDevice
  answers : Answers

/-- One turn of the loop of `tcp_send_data`, or the return after it. -/
def sendTurn (s : State) (t : Nat) (c : Sending) (k : Ports.Socket) (w : Around) : Option State :=
  if c.data.length ≤ c.sent then some ((s.setCall t none).report c.side c.data (Int.bmod c.sent word32))
  else
    let chunk := (c.data.drop c.sent).take tcpMss
    match tcpSendSegment w.devs w.answers k.sk (tcpPsh ||| tcpAck) k.sk.sndNxt k.sk.rcvNxt chunk s.stack with
    | none => none
    | some (r, stack) =>
      let s := { s with stack := stack }
      if r < 0 then some ((s.setCall t none).report c.side c.data r)
      else (stack.sock (s.sock c.side)).map fun k =>
        (s.setSock (s.sock c.side) { k with sk := (sendChunk k.sk chunk.length).1 }).setCall t
          (some { c with sent := c.sent + chunk.length })

/-- The datagram half of `sys_sendto`. -/
def sendDgram (s : State) (e : Bool) (k : Ports.Socket) (data : List UInt8) (dest : Option (Nat × Nat)) (w : Around) :
    Option State :=
  match dest.or (if k.sk.connected then some (k.sk.remoteIp, k.sk.remotePort) else none) with
  | none => some s                         -- -EDESTADDRREQ
  | some (dstIp, dstPort) =>
    let s := { s with stack := s.stack.withPorts (Ports.sysSendto s.stack.sockets.ports (s.sock e) k) }
    (s.stack.sock (s.sock e)).bind fun k =>
      if k.sk.localPort = 0 then some s    -- -EADDRINUSE
      else
        let data := data.take (data.length % word32)
        (udpSend w.devs w.answers k.sk data dstIp dstPort s.stack).map fun r =>
          { s with stack := r.2 }.report e data r.1

/-- `sys_sendto`, and `sys_send` with no address. -/
def sysSendto (s : State) (t : Nat) (e : Bool) (k : Ports.Socket) (data : List UInt8) (dest : Option (Nat × Nat))
    (w : Around) : Option State :=
  if k.sk.type = sockStream then some (tcpSendData s t e k data)
  else if k.sk.type = Ports.sockDgram then sendDgram s e k data dest w
  else some s                              -- -EOPNOTSUPP

/-- `socket_file_write`. -/
def socketFileWrite (s : State) (t : Nat) (e : Bool) (k : Ports.Socket) (data : List UInt8) : State :=
  if k.sk.type = sockStream then tcpSendData s t e k data else s

/-- `sys_write`: descriptors 1 and 2 are the console. -/
def sysWrite (s : State) (t : Nat) (e : Bool) (k : Ports.Socket) (data : List UInt8) : State :=
  if s.fd e = 1 ∨ s.fd e = 2 then s.report e data data.length else socketFileWrite s t e k data

/-- `socket_file_read`: one turn of its loop, the last. -/
def socketFileRead (k : Ports.Socket) (n : Nat) : Received × Ports.Socket :=
  let r := sockRingbufRead k.sk.rcvbuf (n % word32) false
  if r.2 ≠ [] then (.data r.2 none, { k with sk := { k.sk with rcvbuf := r.1 } })
  else if k.sk.state = .closed ∨ k.sk.state = .closeWait then (.ret 0, k)
  else (.ret (-etimedout), k)

inductive Label where
  | sendto (t : Nat) (e : Bool) (data : List UInt8) (dest : Option (Nat × Nat)) (w : Around)
  | write (t : Nat) (e : Bool) (data : List UInt8)
  | turn (t : Nat) (w : Around)
  | recvfrom (e : Bool) (n : Nat) (peek : Bool)
  | read (e : Bool) (n : Nat)

def State.side (s : State) (e : Bool) : Option Ports.Socket := s.stack.sock (s.sock e)

/-- A thread in the loop of `tcp_send_data` makes no other call. -/
def step (s : State) : Label → Option State
  | .sendto t e data dest w => if (s.calls t).isNone then (s.side e).bind fun k => sysSendto s t e k data dest w else none
  | .write t e data => if (s.calls t).isNone then (s.side e).map fun k => sysWrite s t e k data else none
  | .turn t w => (s.calls t).bind fun c => (s.side c.side).bind fun k => sendTurn s t c k w
  | .recvfrom e n peek => (s.side e).map fun k =>
      let r := sysRecvfrom k n peek false
      let s := s.setSock (s.sock e) r.2
      if peek then s else s.receive e r.1
  | .read e n => (s.side e).map fun k =>
      let r := socketFileRead k n
      (s.setSock (s.sock e) r.2).receive e r.1

/-- Any pair `sys_socketpair` returns. -/
def machine : Machine State Label where
  init s := ∃ F task f stack i j domain type protocol rcvbuf rcvbuf',
    sysSocketpair F task f stack i j domain type protocol rcvbuf rcvbuf' = some s
  step := step

/-! ## The stream -/

/-- Nothing is left to read. -/
def State.Drained (s : State) (e : Bool) : Prop := ∀ k ∈ s.side e, k.sk.rcvbuf.bytes = []

/-- **A byte stream each way**: what was received is a prefix of what was reported as sent, and all of it when nothing is
left to read. -/
def Stream (s : State) : Prop :=
  ∀ e, s.received (!e) <+: s.reported e ∧ (s.Drained (!e) → s.received (!e) = s.reported e)

/-- **The steps that write nothing to the console.** -/
def OffConsole (s : State) : Label → Prop
  | .write _ e data => s.fd e = 1 ∨ s.fd e = 2 → data = []
  | _ => True

/-! ## Nothing is sent -/

/-- **What holds while nothing goes to the console**: empty rings, no call past its first turn, nothing sent or received. -/
structure Inv (s : State) : Prop where
  ring : ∀ e, ∃ k, s.side e = some k ∧ k.sk.rcvbuf.len = 0
  sent : ∀ t, ∀ c ∈ s.calls t, c.sent = 0
  reported : ∀ e, s.reported e = []
  received : ∀ e, s.received e = []

variable {s s' : State} {t i : Nat} {e : Bool} {k : Ports.Socket} {data : List UInt8}

theorem report_neg {r : Int} (h : r < 0) : s.report e data r = s := if_pos h

theorem Inv.ring_of (h : Inv s) (hk : s.side e = some k) : k.sk.rcvbuf.len = 0 := by
  obtain ⟨l, hl, hlen⟩ := h.ring e
  cases hk.symm.trans hl
  exact hlen

theorem Inv.stream (h : Inv s) : Stream s := fun e => by
  rw [h.received, h.reported]
  exact ⟨List.nil_prefix, fun _ => rfl⟩

theorem Inv.drained (h : Inv s) (e : Bool) : s.Drained e := fun k hk =>
  List.eq_nil_of_length_eq_zero (k.sk.rcvbuf.length_bytes.trans (h.ring_of hk))

theorem Inv.setCall (h : Inv s) (t : Nat) {c : Option Sending} (hc : ∀ x ∈ c, x.sent = 0) : Inv (s.setCall t c) where
  ring := h.ring
  sent t' x hx := by
    have hx : x ∈ Function.update s.calls t c t' := hx
    by_cases ht : t' = t
    · subst ht
      rw [Function.update_self] at hx
      exact hc x hx
    · rw [Function.update_of_ne ht] at hx
      exact h.sent t' x hx
  reported := h.reported
  received := h.received

/-- The rings of the pair are empty in these sockets. -/
def Quiet (s : State) (stack : Stack) : Prop := ∀ e, ∃ k, stack.sock (s.sock e) = some k ∧ k.sk.rcvbuf.len = 0

theorem Inv.withStack {stack : Stack} (h : Inv s) (hq : Quiet s stack) : Inv { s with stack := stack } :=
  ⟨hq, h.sent, h.reported, h.received⟩

theorem Quiet.update {stack stack' : Stack} (h : Quiet s stack) (hk : k.sk.rcvbuf.len = 0)
    (hu : stack'.sockets.ports.socks = Function.update stack.sockets.ports.socks i (some k)) : Quiet s stack' := by
  intro e
  unfold Stack.sock
  rw [hu]
  by_cases he : s.sock e = i
  · rw [he, Function.update_self]
    exact ⟨k, rfl, hk⟩
  · rw [Function.update_of_ne he]
    exact h e

theorem Inv.setSock (h : Inv s) (i : Nat) (hk : k.sk.rcvbuf.len = 0) : Inv (s.setSock i k) := by
  have hq : Quiet s s.stack := h.ring
  exact h.withStack (hq.update hk rfl)

/-- A call that had nothing to send. -/
theorem Inv.report_nil (h : Inv s) (e : Bool) (r : Int) : Inv (s.report e [] r) := by
  unfold State.report
  split
  · exact h
  · refine ⟨h.ring, h.sent, fun e' => ?_, h.received⟩
    rw [List.take_nil, List.append_nil, Function.update_eq_self]
    exact h.reported e'

/-! ## Reading -/

theorem sockRingbufRead_empty {rb : SockRingbuf} (h : rb.len = 0) (n : Nat) (peek : Bool) :
    sockRingbufRead rb n peek = (rb, []) := if_pos h

theorem sysRecvfrom_empty (h : k.sk.rcvbuf.len = 0) (n : Nat) (peek src : Bool) :
    ∃ r, sysRecvfrom k n peek src = (.ret r, k) := by
  unfold sysRecvfrom
  rw [sockRingbufRead_empty h]
  simp only [ne_eq, not_true_eq_false, if_false]
  split <;> exact ⟨_, rfl⟩

theorem socketFileRead_empty (h : k.sk.rcvbuf.len = 0) (n : Nat) : ∃ r, socketFileRead k n = (.ret r, k) := by
  unfold socketFileRead
  rw [sockRingbufRead_empty h]
  simp only [ne_eq, not_true_eq_false, if_false]
  split <;> exact ⟨_, rfl⟩

/-! ## Sending -/

theorem Inv.tcpSendData (h : Inv s) (t : Nat) (e : Bool) (k : Ports.Socket) (data : List UInt8) :
    Inv (tcpSendData s t e k data) := by
  unfold SockPair.tcpSendData
  split
  · exact h
  · split
    · exact h
    · refine h.setCall t fun x hx => ?_
      cases hx
      rfl

theorem inetAllocPort_socks (P : Ports.State) : (Ports.inetAllocPort P).2.socks = P.socks := by
  unfold Ports.inetAllocPort
  split <;> rfl

/-- The automatic port changes no ring. -/
theorem Quiet.sendto {stack : Stack} (h : Quiet s stack) (hk : k.sk.rcvbuf.len = 0) (i : Nat) :
    Quiet s (stack.withPorts (Ports.sysSendto stack.sockets.ports i k)) := by
  unfold Ports.sysSendto
  split
  · have hsocks := inetAllocPort_socks stack.sockets.ports
    split
    · rename_i P heq
      rw [heq] at hsocks
      intro e
      obtain ⟨l, hl⟩ := h e
      exact ⟨l, (congrFun hsocks _).trans hl.1, hl.2⟩
    · rename_i p P heq
      rw [heq] at hsocks
      refine h.update (k := k.setPort p) (i := i) hk ?_
      exact congrArg (fun f => Function.update f i (some (k.setPort p))) hsocks
  · exact h

theorem Inv.sendDgram {dest : Option (Nat × Nat)} {w : Around} (h : Inv s) (hk : k.sk.rcvbuf.len = 0)
    (hs : sendDgram s e k data dest w = some s') : Inv s' := by
  unfold SockPair.sendDgram at hs
  split at hs
  · cases hs
    exact h
  · have h' := h.withStack (Quiet.sendto h.ring hk (s.sock e))
    simp only at hs
    obtain ⟨l, -, hs⟩ := Option.bind_eq_some_iff.1 hs
    split at hs
    · cases hs
      exact h'
    · obtain ⟨⟨r, stack⟩, hsend, rfl⟩ := Option.map_eq_some_iff.1 hs
      obtain ⟨hneg, hsame⟩ := udpSend_fails _ _ _ _ _ hsend
      simp only at hneg hsame
      subst hsame
      rw [report_neg hneg]
      exact h'

theorem Inv.sysSendto {dest : Option (Nat × Nat)} {w : Around} (h : Inv s) (hk : k.sk.rcvbuf.len = 0)
    (hs : sysSendto s t e k data dest w = some s') : Inv s' := by
  unfold SockPair.sysSendto at hs
  split at hs
  · cases hs
    exact h.tcpSendData t e k data
  · split at hs
    · exact h.sendDgram hk hs
    · cases hs
      exact h

/-- **A call that still has all its bytes to send fails, or had none.** -/
theorem Inv.sendTurn {c : Sending} {w : Around} (h : Inv s) (hc : c.sent = 0) (hs : sendTurn s t c k w = some s') :
    Inv s' := by
  have hdone := h.setCall t (c := none) fun x hx => absurd hx (Option.not_mem_none x)
  unfold SockPair.sendTurn at hs
  split at hs
  · rename_i hlen
    have hnil : c.data = [] := List.eq_nil_of_length_eq_zero (by omega)
    rw [← Option.some.inj hs, hnil]
    exact hdone.report_nil c.side _
  · simp only at hs
    split at hs
    · cases hs
    · rename_i r stack hsend
      obtain ⟨hneg, hsame⟩ := tcpSendSegment_fails _ _ _ _ _ _ hsend
      simp only at hneg hsame
      subst hsame
      rw [if_pos hneg] at hs
      cases hs
      rw [report_neg hneg]
      exact hdone

/-! ## Runs -/

/-- **What every step off the console keeps.** -/
theorem Inv.step {a : Label} (h : Inv s) (hok : OffConsole s a) (hs : step s a = some s') : Inv s' := by
  cases a with
  | sendto t e data dest w =>
    simp only [SockPair.step] at hs
    split at hs
    · obtain ⟨k, hk, hs⟩ := Option.bind_eq_some_iff.1 hs
      exact h.sysSendto (h.ring_of hk) hs
    · cases hs
  | write t e data =>
    simp only [SockPair.step] at hs
    split at hs
    · obtain ⟨k, -, rfl⟩ := Option.map_eq_some_iff.1 hs
      unfold sysWrite
      split
      · rename_i hfd
        rw [hok hfd]
        exact h.report_nil e _
      · unfold socketFileWrite
        split
        · exact h.tcpSendData t e k data
        · exact h
    · cases hs
  | turn t w =>
    obtain ⟨c, hc, hs⟩ := Option.bind_eq_some_iff.1 hs
    obtain ⟨k, -, hs⟩ := Option.bind_eq_some_iff.1 hs
    exact h.sendTurn (h.sent t c hc) hs
  | recvfrom e n peek =>
    obtain ⟨k, hk, rfl⟩ := Option.map_eq_some_iff.1 hs
    have hlen := h.ring_of hk
    obtain ⟨r, hr⟩ := sysRecvfrom_empty hlen n peek false
    rw [hr]
    have h' := h.setSock (s.sock e) hlen
    split <;> exact h'
  | read e n =>
    obtain ⟨k, hk, rfl⟩ := Option.map_eq_some_iff.1 hs
    have hlen := h.ring_of hk
    obtain ⟨r, hr⟩ := socketFileRead_empty hlen n
    rw [hr]
    exact h.setSock (s.sock e) hlen

/-- **What goes to the console is reported and does not arrive.** -/
theorem offConsole_of_stream {a : Label} (h : Inv s) (hs : SockPair.step s a = some s') (hstream : Stream s') :
    OffConsole s a := by
  cases a with
  | write t e data =>
    intro hfd
    simp only [SockPair.step] at hs
    split at hs
    · obtain ⟨k, -, rfl⟩ := Option.map_eq_some_iff.1 hs
      unfold sysWrite at hstream
      rw [if_pos hfd, State.report, if_neg (by omega)] at hstream
      have heq := (hstream e).2 (h.drained (!e))
      simp only [Function.update_self, h.received, h.reported, List.nil_append, Int.toNat_natCast, List.take_length] at heq
      exact heq.symm
    · cases hs
  | _ => trivial

theorem Inv.start (h : machine.init s) : Inv s := by
  obtain ⟨F, task, f, stack, i, j, domain, type, protocol, rcvbuf, rcvbuf', h⟩ := h
  unfold sysSocketpair at h
  split at h
  · rename_i hpre
    obtain ⟨fds, -, rfl⟩ := Option.map_eq_some_iff.1 h
    have hempty : ∀ rcvbuf, (pairEnd domain type protocol rcvbuf).sk.rcvbuf.len = 0 := fun rcvbuf => by
      cases rcvbuf <;> rfl
    refine ⟨fun e => ?_, fun t c hc => absurd hc (Option.not_mem_none c), fun _ => rfl, fun _ => rfl⟩
    cases e with
    | true => exact ⟨_, Function.update_self .., hempty rcvbuf'⟩
    | false => exact ⟨_, (Function.update_of_ne hpre.2.1 _ _).trans (Function.update_self ..), hempty rcvbuf⟩
  · cases h

/-- **The pair is a byte stream throughout** exactly the runs that write nothing to descriptors 1 and 2. -/
theorem stream_iff (l : List Label) (s s' : State) (hinit : machine.init s) (hrun : machine.run s l = some s') :
    machine.Always Stream s l ↔ machine.RunOk OffConsole s l s' :=
  machine.always_iff_runOk (I := Inv) (fun _ h => h.stream) (fun _ _ _ h hs hok => h.step hok hs)
    (fun _ _ _ h hs hstream => offConsole_of_stream h hs hstream) l s s' (Inv.start hinit) hrun

/-- The first process, with no file open: the pair is 0 and 1. -/
def files : Files.State :=
  ⟨⟨fun _ => none, false⟩, fun _ => none, fun _ => none, 1, fun _ => some ⟨0, fun _ => .empty⟩, fun _ => false, []⟩

/-- After `net_init`. -/
def bootStack : Stack := ⟨⟨Ports.boot, fun _ => none⟩, bootCache, 0x1234⟩

def pair : State where
  stack := (bootStack.setSock 0 (pairEnd afUnix sockStream 0 none)).setSock 1 (pairEnd afUnix sockStream 0 none)
  sock e := if e then 1 else 0
  fd e := if e then 1 else 0
  calls _ := none
  reported _ := []
  received _ := []

theorem machine_pair : machine.init pair := ⟨files, 0, 0, bootStack, 0, 1, afUnix, sockStream, 0, none, none, rfl⟩

/-- A write to descriptor 0 fails, and a read of the other end finds nothing. -/
theorem stream_pair : machine.Always Stream pair
    [.write 0 false [65], .turn 0 ⟨[], ⟨fun _ => none, fun _ => none⟩⟩, .read true 1] :=
  (stream_iff _ _ _ machine_pair rfl).2 ⟨nofun, _, rfl, trivial, _, rfl, trivial, _, rfl, rfl⟩

/-- **A byte written to descriptor 1** is reported and never read. -/
theorem not_stream : ¬∀ l s s', machine.init s → machine.run s l = some s' → machine.Always Stream s l := by
  intro h
  obtain ⟨-, hall⟩ := h [.write 0 true [65]] pair _ machine_pair rfl
  have heq := ((hall _ rfl) true).2 fun k hk => by cases hk; rfl
  cases heq

end SockPair
end Pico
