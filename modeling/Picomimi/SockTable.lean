import Picomimi.PortsRun
/-!
# SockTable — the table incoming packets are looked up in

`inet_lookup` searches `sock_table`, and nothing in the source calls `sock_table_insert`: no call of the socket layer
touches the table, and every lookup comes back empty.  `demuxKept_iff` says when that is the right answer: as long as no
live socket has a port.
-/
namespace Pico
namespace SockTable

open Lib Net Ports

def sockTableSize : Nat := 256

/-- The sockets, and the table with their addresses. -/
structure State where
  ports : Ports.State
  table : Nat → Option Nat

/-- What a packet is looked up by. -/
structure Query where
  proto : Nat
  srcIp : Nat
  srcPort : Nat
  dstIp : Nat
  dstPort : Nat

/-- The tests of `inet_lookup` on one entry. -/
def Hit (q : Query) (sk : Sock) : Prop :=
  sk.protocol % 256 = q.proto ∧ sk.localPort = q.dstPort ∧ (sk.localIp = 0 ∨ sk.localIp = q.dstIp)

instance (q : Query) (sk : Sock) : Decidable (Hit q sk) := inferInstanceAs (Decidable (_ ∧ _ ∧ _))

/-- `inet_lookup`: the first entry that passes. -/
def inetLookup (s : State) (q : Query) : Option Nat :=
  (List.range sockTableSize).findSome? fun n => (s.table n).filter fun i =>
    match s.ports.socks i with
    | none => false           -- freed memory
    | some k => decide (Hit q k.sk)

/-- The calls leave the table alone. -/
def step (s : State) (a : Label) : Option State := (Ports.step s.ports a).map fun ports => { s with ports := ports }

/-- `net_init`. -/
def machine : Machine State Label where
  init s := s.ports = boot ∧ s.table = fun _ => none
  step := step

/-- A live socket that is bound. -/
def Bound (s : State) (i : Nat) (k : Socket) : Prop := s.ports.socks i = some k ∧ k.held ≠ none

/-- The packet is for the socket: for its address, and from its peer if it has one. -/
def Takes (q : Query) (k : Socket) : Prop :=
  Hit q k.sk ∧ (k.sk.connected = true → k.sk.remoteIp = q.srcIp ∧ k.sk.remotePort = q.srcPort)

/-- A peer counts more than an address. -/
def specificity (sk : Sock) : Nat := (if sk.connected then 2 else 0) + if sk.localIp = 0 then 0 else 1

/-- **What a lookup must return**: the most specific of the live bound sockets the packet is for, if there is one. -/
def Demux (s : State) : Prop := ∀ q,
  match inetLookup s q with
  | none => ∀ i k, Bound s i k → ¬Takes q k
  | some i => ∃ k, Bound s i k ∧ Takes q k ∧ ∀ j l, Bound s j l → Takes q l → specificity l.sk ≤ specificity k.sk

/-- **What a step must keep.** -/
def Kept (s : State) (a : Label) : Prop := ∀ s', step s a = some s' → Demux s'

/-- The connect leaves its socket closed. -/
def EndsClosed (k : Socket) (sendOk : Bool) (after : TcpState) : Prop := k.Closed ∧ (sendOk = true → after = .closed)

/-- **The steps that bind no live socket.** -/
def BindsNone (s : State) : Label → Prop
  | .bind i _ port => ∀ k ∈ s.ports.socks i, k.Closed ∨ port = 0 ∧ s.ports.Exhausted
  | .connect i _ _ _ sendOk after => ∀ k ∈ s.ports.socks i,
      EndsClosed k sendOk after ∨ k.sk.localPort = 0 ∧ s.ports.Exhausted
  | .sendto i => ∀ k ∈ s.ports.socks i, k.sk.type = sockDgram → k.sk.localPort = 0 → s.ports.Exhausted
  | .listen i _ => ∀ k ∈ s.ports.socks i, k.sk.type = sockStream → k.sk.localPort ≠ 0 →
      ¬(k.sk.state = .closed ∨ k.sk.state = .closeWait)
  | .accept i j => ∀ k ∈ s.ports.socks i, k.sk.type = sockStream → k.sk.state = .listen → ∀ j' ∈ j,
      s.ports.socks j' = none → ∀ c ∈ k.queue.head?, c.localPort = 0
  | _ => True

/-! ## The empty table -/

variable {s s' : State} {i p : Nat} {k l : Socket}

theorem inetLookup_empty (h : s.table = fun _ => none) (q : Query) : inetLookup s q = none := by
  unfold inetLookup
  rw [List.findSome?_eq_none_iff, h]
  exact fun _ _ => rfl

/-- **An empty table is right exactly when there is nothing to find.** -/
theorem demux_iff (h : s.table = fun _ => none) : Demux s ↔ ∀ i, s.ports.held i = none := by
  constructor
  · intro hd i
    cases hk : s.ports.socks i with
    | none => rw [State.held, hk]; rfl
    | some k =>
      rw [State.held_of_some hk]
      by_contra hheld
      -- the packet its peer would send it
      have hq := hd ⟨k.sk.protocol % 256, k.sk.remoteIp, k.sk.remotePort, k.sk.localIp, k.sk.localPort⟩
      rw [inetLookup_empty h] at hq
      exact hq i k ⟨hk, hheld⟩ ⟨⟨rfl, rfl, .inr rfl⟩, fun _ => ⟨rfl, rfl⟩⟩
  · intro hnone q
    rw [inetLookup_empty h]
    rintro i k ⟨hk, hheld⟩ -
    exact hheld ((State.held_of_some hk).symm.trans (hnone i))

/-! ## One step -/

/-- No live socket has a port. -/
def Unbound (P : Ports.State) : Prop := ∀ i, P.held i = none

variable {P P' : Ports.State}

theorem unbound_update {k? : Option Socket} (hu : Unbound P) (h : P'.socks = Function.update P.socks i k?) :
    Unbound P' ↔ k?.bind Socket.held = none := by
  have hheld := held_of_update h
  constructor
  · intro hu'
    have := hu' i
    rwa [hheld, Function.update_self] at this
  · intro hk j
    rw [hheld]
    by_cases hji : j = i
    · rw [hji, Function.update_self]
      exact hk
    · rw [Function.update_of_ne hji]
      exact hu j

theorem held_none_iff : k.held = none ↔ k.sk.localPort = 0 ∨ k.Closed := by
  unfold Socket.held
  split
  · exact iff_of_true rfl ‹_›
  · exact iff_of_false nofun ‹_›

theorem unbound_some (hu : Unbound P) (h : P'.socks = Function.update P.socks i (some l)) :
    Unbound P' ↔ l.sk.localPort = 0 ∨ l.Closed := (unbound_update hu h).trans held_none_iff

/-- Only the sockets count. -/
theorem unbound_socks (h : P'.socks = P.socks) : Unbound P' ↔ Unbound P := by
  unfold Unbound State.held
  rw [h]

theorem held_of_unbound (hu : Unbound P) (hk : P.socks i = some k) : k.held = none := (State.held_of_some hk).symm.trans (hu i)

/-- A socket that keeps its port and stays closed. -/
theorem unbound_same (hu : Unbound P) (hk : P.socks i = some k) (h : P'.socks = Function.update P.socks i (some l))
    (hp : l.sk.localPort = k.sk.localPort) (hc : k.Closed → l.Closed) : Unbound P' :=
  (unbound_some hu h).2 ((held_none_iff.1 (held_of_unbound hu hk)).imp (fun h0 => hp.trans h0) hc)

theorem unbound_bind (hb : Base P) (hu : Unbound P) (ip port : Nat) :
    Unbound (sysBind P i k ip port) ↔ k.Closed ∨ port = 0 ∧ P.Exhausted := by
  unfold sysBind
  by_cases hport : port = 0
  · subst hport
    simp only [if_true, true_and]
    rcases inetAllocPort_cases hb.low with ⟨hex, next, -, heq⟩ | ⟨hex, p, next, -, hp, htp, heq⟩
    · rw [heq]
      exact (unbound_some hu rfl).trans (iff_of_true (.inl rfl) (.inr hex))
    · rw [heq]
      exact (unbound_some hu rfl).trans ((or_iff_right hp).trans (or_iff_left hex).symm)
  · rw [if_neg hport]
    exact (unbound_some hu rfl).trans ((or_iff_right hport).trans (or_iff_left fun h => hport h.1).symm)

theorem unbound_connect (hb : Base P) (hu : Unbound P) (ip port jiffies : Nat) (sendOk : Bool) (after : TcpState) :
    Unbound (sysConnect P i k ip port jiffies sendOk after) ↔
      EndsClosed k sendOk after ∨ k.sk.localPort = 0 ∧ P.Exhausted := by
  unfold sysConnect
  by_cases hp : k.sk.localPort = 0
  · rw [if_pos hp]
    rcases inetAllocPort_cases hb.low with ⟨hex, next, -, heq⟩ | ⟨hex, p, next, -, hp0, htp, heq⟩
    · rw [heq]
      exact iff_of_true ((unbound_socks rfl).2 hu) (.inr ⟨hp, hex⟩)
    · rw [heq]
      obtain ⟨hport, -, -, hclosed, -⟩ := connectSk_spec (k.setPort p) ip port jiffies sendOk after hp0
      refine (unbound_some hu rfl).trans ((or_iff_right fun h => hp0 (hport.symm.trans h)).trans ?_)
      exact hclosed.trans (or_iff_left fun h => hex h.2).symm
  · rw [if_neg hp]
    obtain ⟨hport, -, -, hclosed, -⟩ := connectSk_spec k ip port jiffies sendOk after hp
    refine (unbound_some hu rfl).trans ((or_iff_right fun h => hp (hport.symm.trans h)).trans ?_)
    exact hclosed.trans (or_iff_left fun h => hp h.1).symm

theorem unbound_sendto (hb : Base P) (hu : Unbound P) :
    Unbound (sysSendto P i k) ↔ (k.sk.type = sockDgram → k.sk.localPort = 0 → P.Exhausted) := by
  unfold sysSendto
  by_cases h : k.sk.type = sockDgram ∧ k.sk.localPort = 0
  · rw [if_pos h, imp_iff_right h.1, imp_iff_right h.2]
    rcases inetAllocPort_cases hb.low with ⟨hex, next, -, heq⟩ | ⟨hex, p, next, -, hp0, htp, heq⟩
    · rw [heq]
      exact iff_of_true ((unbound_socks rfl).2 hu) hex
    · rw [heq]
      refine (unbound_some hu rfl).trans (iff_of_false ?_ hex)
      rintro (hz | hc)
      · exact hp0 hz
      · have ht : sockDgram = sockStream := h.1.symm.trans hc.1
        exact absurd ht (by decide)
  · rw [if_neg h]
    exact iff_of_true hu fun h1 h2 => absurd ⟨h1, h2⟩ h

theorem unbound_listen (hu : Unbound P) (hk : P.socks i = some k) (backlog : Int) :
    Unbound (P.set i (some (listen k backlog))) ↔
      (k.sk.type = sockStream → k.sk.localPort ≠ 0 → ¬(k.sk.state = .closed ∨ k.sk.state = .closeWait)) := by
  refine (unbound_some hu rfl).trans ?_
  have hspec := listen_spec k backlog
  generalize listen k backlog = l at hspec
  split at hspec
  · rename_i h
    obtain ⟨hport, -, -, hclosed⟩ := hspec
    refine iff_of_false (fun hor => ?_) fun hno => hno h.1 h.2.1 h.2.2
    exact hor.elim (fun hz => h.2.1 (hport.symm.trans hz)) hclosed
  · rename_i h
    rw [← held_none_iff, hspec.1]
    exact iff_of_true (held_of_unbound hu hk) fun ht hp hst => h ⟨ht, hp, hst⟩

theorem unbound_accept (hu : Unbound P) (hk : P.socks i = some k) (j : Option Nat) :
    (∀ P', sysAccept P i k j = some P' → Unbound P') ↔
      (k.sk.type = sockStream → k.sk.state = .listen → ∀ j' ∈ j, P.socks j' = none →
        ∀ c ∈ k.queue.head?, c.localPort = 0) := by
  have hdequeue : ∀ queue, Unbound (P.set i (some (k.dequeue queue))) := fun queue =>
    unbound_same (l := k.dequeue queue) hu hk rfl rfl id
  cases j with
  | none => exact iff_of_true (forall_accept_none.2 fun _ _ _ queue _ => hdequeue queue) fun _ _ => forall_none
  | some j =>
    refine (forall_accept_some hk).trans (imp_congr_right fun _ => imp_congr_right fun _ => ?_)
    have hone : ∀ c queue, Unbound ((P.set i (some (k.dequeue queue))).set j (some ⟨.connected, c, false, []⟩)) ↔
        c.localPort = 0 := fun c queue =>
      (unbound_some (hdequeue queue) rfl).trans (or_iff_left fun h => Bool.false_ne_true h.2.1)
    constructor
    · intro h j' hj' hnone c hc
      cases hj'
      obtain ⟨queue, hq⟩ : ∃ queue, k.queue = c :: queue := List.head?_eq_some_iff.1 hc
      exact (hone c queue).1 (h c queue hq hnone)
    · intro h c queue hq hnone
      exact (hone c queue).2 (h j rfl hnone c (by rw [hq]; rfl))

/-- What comes from the network binds nothing. -/
theorem unbound_input (hu : Unbound P) (hk : P.socks i = some k) (skb : SkBuff) (env : Env) :
    Unbound (P.set i (some (input k skb env))) := by
  obtain ⟨hframe, -⟩ := tcpInput_frame k.sk env skb
  refine unbound_same (l := input k skb env) hu hk rfl hframe.port fun hc => ?_
  exact ⟨hframe.type.trans hc.1, hc.2.1, tcpInput_closed hc.2.2 env skb⟩

theorem unbound_shutdown (hb : Base P) (hu : Unbound P) (hk : P.socks i = some k) : Unbound (sysShutdown P i k) := by
  unfold sysShutdown
  by_cases ht : k.sk.type = sockStream
  · simp only [if_pos ht]
    obtain ⟨hframe, hst, -⟩ := tcpClosed_spec k.sk
    refine unbound_same hu hk (moves_free hb _).socks hframe.port fun hc => ?_
    exact ⟨hframe.type.trans hc.1, rfl, hst.2 (.inl hc.2.2)⟩
  · simp only [if_neg ht]
    exact unbound_same (l := { k with shutdownWr := true }) hu hk rfl rfl fun hc => absurd hc.1 ht

/-- **One step binds no live socket exactly when it is one of these.** -/
theorem unbound_step_iff (hb : Base s.ports) (hu : Unbound s.ports) (a : Label) :
    (∀ P', Ports.step s.ports a = some P' → Unbound P') ↔ BindsNone s a := by
  cases a with
  | socket i type protocol rcvbuf =>
    refine iff_of_true (fun P' h => ?_) trivial
    simp only [Ports.step] at h
    split at h
    · cases h
      exact (unbound_some (l := sysSocket type protocol rcvbuf) hu rfl).2 (.inl rfl)
    · cases h
  | bind i ip port => exact forall_map_iff.trans (forall₂_congr fun k _ => unbound_bind hb hu ip port)
  | connect i ip port jiffies sendOk after =>
    exact forall_map_iff.trans (forall₂_congr fun k _ => unbound_connect hb hu ip port jiffies sendOk after)
  | sendto i => exact forall_map_iff.trans (forall₂_congr fun k _ => unbound_sendto hb hu)
  | listen i backlog => exact forall_map_iff.trans (forall₂_congr fun k hk => unbound_listen hu hk backlog)
  | accept i j => exact forall_bind_iff.trans (forall₂_congr fun k hk => unbound_accept hu hk j)
  | segment i skb env =>
    refine iff_of_true (forall_bind_iff.2 fun k hk P' h => ?_) trivial
    split at h
    · cases h
      exact unbound_input hu hk skb env
    · cases h
  | queued i n skb env =>
    refine iff_of_true (forall_map_iff.2 fun k hk => ?_) trivial
    exact unbound_same (l := inputQueued k n skb env) hu hk rfl rfl id
  | shutdown i => exact iff_of_true (forall_map_iff.2 fun k hk => unbound_shutdown hb hu hk) trivial
  | close i => exact iff_of_true (forall_map_iff.2 fun k _ => (unbound_update hu rfl).2 rfl) trivial

/-! ## Runs -/

/-- **What every run of such steps keeps.** -/
structure Inv (s : State) : Prop where
  empty : s.table = fun _ => none
  base : Base s.ports
  unbound : Unbound s.ports

theorem kept_iff_bindsNone (s : State) (a : Label) (h : Inv s) : Kept s a ↔ BindsNone s a := by
  rw [← unbound_step_iff h.base h.unbound a]
  constructor
  · intro hkept P' hP
    have hs : step s a = some { s with ports := P' } := by rw [step, hP]; rfl
    exact (demux_iff (s := { s with ports := P' }) h.empty).1 (hkept _ hs)
  · intro hu s' hs
    obtain ⟨P', hP, rfl⟩ := Option.map_eq_some_iff.1 hs
    exact (demux_iff (s := { s with ports := P' }) h.empty).2 (hu P' hP)

theorem Inv.step {a : Label} (h : Inv s) (hok : BindsNone s a) (hs : step s a = some s') : Inv s' := by
  obtain ⟨P', hP, rfl⟩ := Option.map_eq_some_iff.1 hs
  exact ⟨h.empty, (step_frame h.base hP).1, (unbound_step_iff h.base h.unbound a).2 hok P' hP⟩

theorem Inv.start (h : machine.init s) : Inv s := by
  obtain ⟨hports, hempty⟩ := h
  refine ⟨hempty, ?_, ?_⟩
  · rw [hports]
    exact (Ports.Inv.start rfl).base
  · rw [hports]
    exact fun _ => rfl

/-- **Lookups are right** in exactly the runs that bind no live socket. -/
theorem demuxKept_iff (l : List Label) (s s' : State) (hinit : machine.init s) :
    machine.RunOk Kept s l s' ↔ machine.RunOk BindsNone s l s' :=
  machine.runOk_iff kept_iff_bindsNone (fun _ _ _ h hok hs => h.step hok hs) l s s' (Inv.start hinit)

/-- A socket that is made and closed. -/
theorem demuxKept_socket : ∃ s', machine.RunOk Kept ⟨boot, fun _ => none⟩ [.socket 0 1 0 none, .close 0] s' :=
  ⟨_, (demuxKept_iff _ _ _ ⟨rfl, rfl⟩).2 ⟨trivial, _, rfl, trivial, _, rfl, rfl⟩⟩

/-- **A server on port 80 is not found.** -/
theorem not_demuxKept : ¬∀ l s s', machine.init s → machine.run s l = some s' → machine.RunOk Kept s l s' := by
  intro h
  have hrun := h [.socket 0 1 0 none, .bind 0 0 80, .listen 0 5] ⟨boot, fun _ => none⟩ _ ⟨rfl, rfl⟩ rfl
  obtain ⟨-, s₁, hs₁, -, s₂, hs₂, hkept, -⟩ := hrun
  cases hs₁
  cases hs₂
  have hq := hkept _ rfl ⟨6, 1, 1, 2, 80⟩
  rw [inetLookup_empty rfl] at hq
  exact hq 0 _ ⟨rfl, nofun⟩ ⟨⟨rfl, rfl, .inl rfl⟩, nofun⟩

end SockTable
end Pico
