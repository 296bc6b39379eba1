import Picomimi.Ports
/-!
# PortsRun — the runs that keep the law of the ports

Each call changes one socket, and sets one mark, clears one or leaves the marks alone: `law_set_iff`, `law_take_iff` and
`law_give_iff`.  `lawKept_iff` puts them together: the law is kept exactly by the steps `PortOk` lists.
-/
namespace Pico
namespace Ports

open Lib Net

variable {s s' : State} {i p : Nat} {k : Socket}

theorem forall_none {α : Type} {P : α → Prop} : ∀ x ∈ (none : Option α), P x := fun x h =>
  absurd h (Option.not_mem_none x)

/-! ## The port a socket holds -/

theorem Socket.held_of_closed (h : k.Closed) : k.held = none := if_pos (.inr h)

theorem Socket.held_of_zero (h : k.sk.localPort = 0) : k.held = none := if_pos (.inl h)

theorem Socket.held_of_live (h : ¬k.Closed) (hp : k.sk.localPort ≠ 0) : k.held = some k.sk.localPort :=
  if_neg fun hor => hor.elim hp h

theorem Socket.held_eq_some_iff : k.held = some p ↔ k.sk.localPort = p ∧ p ≠ 0 ∧ ¬k.Closed := by
  unfold Socket.held
  split
  · rename_i h
    refine iff_of_false nofun ?_
    rintro ⟨rfl, hp, hc⟩
    exact h.elim hp hc
  · rename_i h
    rw [Option.some.injEq]
    refine ⟨?_, fun h' => h'.1⟩
    rintro rfl
    exact ⟨rfl, not_or.1 h⟩

theorem Socket.held_congr {l : Socket} (hp : l.sk.localPort = k.sk.localPort) (hc : l.Closed ↔ k.Closed) :
    l.held = k.held := by
  simp only [Socket.held, hp, hc]

theorem apart_of_none (h : k.held = none) : Apart s i k := fun _ p hp => by
  rw [h] at hp
  cases hp

theorem apart_iff (h : k.held = some p) : Apart s i k ↔ (k.Open → NoOpen s i k.sk.protocol p) := by
  constructor
  · exact fun ha ho => ha ho p h
  · intro ha ho q hq
    rw [h, Option.mem_def, Option.some.injEq] at hq
    exact hq ▸ ha ho

theorem apart_congr {l : Socket} (ho : l.Open ↔ k.Open) (hp : l.sk.protocol = k.sk.protocol) (hh : l.held = k.held) :
    Apart s i l ↔ Apart s i k := by
  rw [Apart, Apart, ho, hp, hh]

/-! ## One socket changes -/

variable {k? : Option Socket}

theorem held_of_update (h : s'.socks = Function.update s.socks i k?) :
    s'.held = Function.update s.held i (k?.bind Socket.held) := by
  funext j
  by_cases hj : j = i
  · subst hj
    rw [State.held, h, Function.update_self, Function.update_self]
  · rw [State.held, h, Function.update_of_ne hj, Function.update_of_ne hj]
    rfl

theorem State.held_of_some (hk : s.socks i = some k) : s.held i = k.held := by
  rw [State.held, hk]
  rfl

/-- The others see the new socket as it sees them. -/
theorem apart_of_update (h : s'.socks = Function.update s.socks i k?) (ha : ∀ j, ∀ l ∈ s.socks j, Apart s j l) :
    (∀ j, ∀ l ∈ s'.socks j, Apart s' j l) ↔ ∀ l ∈ k?, Apart s i l := by
  have hsame : ∀ l, Apart s' i l ↔ Apart s i l := fun l => by
    refine imp_congr_right fun _ => forall₂_congr fun p _ => forall₂_congr fun j hj => ?_
    rw [h, Function.update_of_ne hj]
  constructor
  · intro h' l hl
    refine (hsame l).1 (h' i l ?_)
    rw [h, Function.update_self]
    exact hl
  · intro hl j l hj
    by_cases hji : j = i
    · subst hji
      rw [h, Function.update_self] at hj
      exact (hsame l).2 (hl l hj)
    · rw [h, Function.update_of_ne hji] at hj
      intro ho q hq m hm n hn hno hnp
      by_cases hmi : m = i
      · subst hmi
        rw [h, Function.update_self] at hn
        intro hnq
        exact hl n hn hno q hnq j (Ne.symm hm) l hj ho hnp.symm hq
      · rw [h, Function.update_of_ne hmi] at hn
        exact ha j l hj ho q hq m hm n hn hno hnp

theorem law_iff_exact (h : s'.socks = Function.update s.socks i k?) (hs : Law s) (hu : s'.udp = s'.tcp) :
    Law s' ↔ Exact s'.tcp (Function.update s.held i (k?.bind Socket.held)) ∧ ∀ l ∈ k?, Apart s i l := by
  rw [← held_of_update h, ← apart_of_update h hs.apart]
  exact ⟨fun h' => ⟨h'.tcp, h'.apart⟩, fun h' => ⟨h'.2, h'.1, by rw [hu]; exact h'.1⟩⟩

/-- A port that is not marked is nobody's. -/
theorem Law.noOpen (h : Law s) (hp : s.tcp p = false) (i protocol : Nat) : NoOpen s i protocol p := by
  intro j _ l hl _ _ hlp
  have hm := (h.tcp p).2 ⟨j, (State.held_of_some hl).trans hlp⟩
  rw [hp] at hm
  cases hm

/-- **What every step keeps**, lawful or not. -/
structure Base (s : State) : Prop where
  same : s.udp = s.tcp
  low : ephemeralPortLow ≤ s.next
  queue : ∀ i, ∀ k ∈ s.socks i, ∀ c ∈ k.queue, c.listening = false

/-- Nothing is held apart from others when nothing is held. -/
theorem parts_of_none (h : k.held = none) : Parts s i k := fun p hp => by
  rw [h] at hp
  cases hp

theorem parts_iff (h : k.held = some p) : Parts s i k ↔ HeldElse s.held i p := by
  refine ⟨fun hparts => hparts p h, fun helse q hq => ?_⟩
  rw [h, Option.some.injEq] at hq
  exact hq ▸ helse

theorem keep_or_iff {l : Socket} (hk : s.socks i = some k) :
    (s.held i = (some l).bind Socket.held ∨ (∀ q, s.held i = some q → HeldElse s.held i q) ∧
      ∀ q, (some l).bind Socket.held = some q → HeldElse s.held i q) ↔ k.held = l.held ∨ Parts s i k ∧ Parts s i l := by
  rw [State.held_of_some hk]
  exact Iff.rfl

variable {l : Socket}

theorem forall_mem_some {P : Socket → Prop} : (∀ m ∈ some l, P m) ↔ P l :=
  ⟨fun h => h l rfl, fun h _ hm => Option.some.inj hm ▸ h⟩

/-- **The marks are left alone.** -/
theorem law_set_iff (hb : Base s) (hs : Law s) (hk : s.socks i = some k) (next : Nat) :
    Law ({ s with next := next }.set i (some l)) ↔ (k.held = l.held ∨ Parts s i k ∧ Parts s i l) ∧ Apart s i l := by
  have h : ({ s with next := next }.set i (some l)).socks = Function.update s.socks i (some l) := rfl
  rw [law_iff_exact h hs hb.same, forall_mem_some, ← keep_or_iff hk]
  exact and_congr_left' hs.tcp.keep_iff

/-- **A mark is set.** -/
theorem law_take_iff (hb : Base s) (hs : Law s) (hk : s.socks i = some k) (next : Nat) (hp : s.tcp p = false) :
    Law ({ s with
      next := next
      tcp := Function.update s.tcp p true
      udp := Function.update s.udp p true }.set i (some l)) ↔ l.held = some p ∧ Parts s i k := by
  have h : ({ s with
      next := next
      tcp := Function.update s.tcp p true
      udp := Function.update s.udp p true }.set i (some l)).socks = Function.update s.socks i (some l) := rfl
  have hu : Function.update s.udp p true = Function.update s.tcp p true := by rw [hb.same]
  rw [law_iff_exact h hs hu, forall_mem_some]
  refine (and_congr_left' (hs.tcp.take_iff hp)).trans ?_
  rw [State.held_of_some hk]
  refine and_iff_left_of_imp fun hl => ?_
  exact (apart_iff hl.1).2 fun _ => hs.noOpen hp i _

/-- **A mark is cleared.** -/
theorem law_give_iff (hb : Base s) (hs : Law s) (hk : s.socks i = some k) (hp0 : p ≠ 0) (hp : k.held = some p) :
    Law ((inetFreePort s p).set i (some l)) ↔
      (¬HeldElse s.held i p ∧ l.held ≠ some p ∧ Parts s i l) ∧ Apart s i l := by
  rw [inetFreePort, if_neg hp0]
  have h : ({ s with
      tcp := Function.update s.tcp p false
      udp := Function.update s.udp p false
      frees := p :: s.frees }.set i (some l)).socks = Function.update s.socks i (some l) := rfl
  have hu : Function.update s.udp p false = Function.update s.tcp p false := by rw [hb.same]
  rw [law_iff_exact h hs hu, forall_mem_some]
  exact and_congr_left' (hs.tcp.give_iff ((State.held_of_some hk).trans hp))

/-- **The socket goes**, and its mark stays. -/
theorem law_drop_iff (hb : Base s) (hs : Law s) (hk : s.socks i = some k) : Law (s.set i none) ↔ Parts s i k := by
  have h : (s.set i none).socks = Function.update s.socks i none := rfl
  rw [law_iff_exact h hs hb.same]
  refine (and_iff_left forall_none).trans (hs.tcp.keep_iff.trans ?_)
  rw [State.held_of_some hk]
  constructor
  · rintro (hnone | hparts)
    · exact parts_of_none hnone
    · exact hparts.1
  · exact fun hparts => .inr ⟨hparts, nofun⟩

/-- **A new socket.** -/
theorem law_new_iff (hb : Base s) (hs : Law s) (hk : s.socks i = none) :
    Law (s.set i (some l)) ↔ Parts s i l ∧ Apart s i l := by
  have h : (s.set i (some l)).socks = Function.update s.socks i (some l) := rfl
  have hi : s.held i = none := by rw [State.held, hk]; rfl
  rw [law_iff_exact h hs hb.same, forall_mem_some]
  refine and_congr_left' (hs.tcp.keep_iff.trans ?_)
  rw [hi]
  constructor
  · rintro (hnone | hparts)
    · exact parts_of_none hnone.symm
    · exact hparts.2
  · exact fun hparts => .inr ⟨nofun, hparts⟩

/-- A socket keeps its port, or a closed one comes back to it. -/
theorem keep_port_iff (hp : k.sk.localPort ≠ 0) (hl : l.held = some k.sk.localPort) :
    (k.held = l.held ∨ Parts s i k ∧ Parts s i l) ↔ (k.Closed → HeldElse s.held i k.sk.localPort) := by
  rw [parts_iff hl, hl]
  by_cases hc : k.Closed
  · rw [Socket.held_of_closed hc]
    exact ⟨fun h _ => h.elim nofun fun h => h.2, fun h => .inr ⟨parts_of_none (Socket.held_of_closed hc), h hc⟩⟩
  · rw [Socket.held_of_live hc hp]
    exact iff_of_true (.inl rfl) fun h => absurd h hc

/-- A socket that holds what it held. -/
theorem law_same_iff (hb : Base s) (hs : Law s) (hk : s.socks i = some k) (hh : l.held = k.held) :
    Law (s.set i (some l)) ↔ Apart s i l :=
  (law_set_iff hb hs hk s.next).trans (and_iff_right (.inl hh.symm))

/-! ## Allocation -/

theorem nextPort_low (h : ephemeralPortLow ≤ p) : ephemeralPortLow ≤ nextPort p := by
  unfold nextPort
  split <;> omega

theorem allocLoop_spec (tcp : Nat → Bool) : ∀ (n next : Nat), ephemeralPortLow ≤ next →
    ephemeralPortLow ≤ (allocLoop tcp n next).2 ∧
      match (allocLoop tcp n next).1 with
      | none => ∀ m < n, tcp (nextPort^[m] next) = true
      | some p => tcp p = false ∧ ephemeralPortLow ≤ p ∧ ∃ m < n, nextPort^[m] next = p
  | 0, next, h => ⟨h, nofun⟩
  | n + 1, next, h => by
    simp only [allocLoop]
    by_cases hfree : tcp next = false
    · rw [if_pos hfree]
      exact ⟨nextPort_low h, hfree, h, 0, Nat.succ_pos n, rfl⟩
    · rw [if_neg hfree]
      obtain ⟨hlow, hrest⟩ := allocLoop_spec tcp n (nextPort next) (nextPort_low h)
      refine ⟨hlow, ?_⟩
      generalize (allocLoop tcp n (nextPort next)).1 = r at hrest ⊢
      cases r with
      | none =>
        intro m hm
        cases m with
        | zero => exact Bool.not_eq_false _ ▸ hfree
        | succ m =>
          rw [Function.iterate_succ_apply]
          exact hrest m (Nat.lt_of_succ_lt_succ hm)
      | some p =>
        obtain ⟨hp, hplow, m, hm, hmp⟩ := hrest
        exact ⟨hp, hplow, m + 1, Nat.succ_lt_succ hm, by rw [Function.iterate_succ_apply, hmp]⟩

/-- **`inet_alloc_port`** finds nothing in an exhausted range, and else a port that was not marked. -/
theorem inetAllocPort_cases (hlow : ephemeralPortLow ≤ s.next) :
    (s.Exhausted ∧ ∃ next, ephemeralPortLow ≤ next ∧ inetAllocPort s = (none, { s with next := next })) ∨
    (¬s.Exhausted ∧ ∃ p next, ephemeralPortLow ≤ next ∧ p ≠ 0 ∧ s.tcp p = false ∧
      inetAllocPort s = (some p, { s with
        next := next
        tcp := Function.update s.tcp p true
        udp := Function.update s.udp p true })) := by
  have hspec := allocLoop_spec s.tcp (ephemeralPortHigh - ephemeralPortLow) s.next hlow
  unfold inetAllocPort
  generalize allocLoop s.tcp (ephemeralPortHigh - ephemeralPortLow) s.next = r at hspec
  obtain ⟨r, next⟩ := r
  obtain ⟨hnext, hr⟩ := hspec
  cases r with
  | none => exact .inl ⟨hr, next, hnext, rfl⟩
  | some p =>
    obtain ⟨hp, hplow, m, hm, hmp⟩ := hr
    refine .inr ⟨fun hex => ?_, p, next, hnext, Nat.ne_of_gt (Nat.lt_of_lt_of_le (by decide) hplow), hp, rfl⟩
    have := hex m hm
    rw [hmp, hp] at this
    cases this

/-! ## Bind, connect, sendto and listen -/

theorem law_bind_iff (hb : Base s) (hs : Law s) (hk : s.socks i = some k) (ip port : Nat) :
    Law (sysBind s i k ip port) ↔ BindOk s i port k := by
  unfold sysBind BindOk
  by_cases hport : port = 0
  · subst hport
    simp only [if_true, forall_const]
    rcases inetAllocPort_cases hb.low with ⟨hex, next, -, heq⟩ | ⟨hex, p, next, -, hp, htp, heq⟩
    · rw [heq]
      -- no port is found: the old one is lost all the same
      have hnone : Socket.held { k with sk := { k.sk with localIp := ip, localPort := 0 } } = none :=
        Socket.held_of_zero rfl
      refine (law_set_iff hb hs hk next).trans ?_
      rw [hnone, and_iff_left (parts_of_none hnone), and_iff_left (apart_of_none hnone)]
      by_cases hc : k.Closed
      · rw [if_pos hc]
        exact iff_of_true (.inl (Socket.held_of_closed hc)) hex
      · rw [if_neg hc]
        exact or_iff_right_of_imp parts_of_none
    · rw [heq]
      refine (law_take_iff hb hs hk next htp).trans ?_
      by_cases hc : k.Closed
      · rw [if_pos hc]
        refine iff_of_false (fun h => ?_) hex
        have hnone := h.1
        rw [Socket.held_of_closed (by exact hc)] at hnone
        cases hnone
      · rw [if_neg hc]
        exact and_iff_right (Socket.held_of_live (by exact hc) hp)
  · rw [if_neg hport]
    refine (law_set_iff hb hs hk s.next).trans ?_
    by_cases hc : k.Closed
    · rw [if_pos hc]
      have hnone : Socket.held { k with sk := { k.sk with localIp := ip, localPort := port }, state := .unconnected } = none :=
        Socket.held_of_closed hc
      rw [hnone]
      exact iff_of_true ⟨.inl (Socket.held_of_closed hc), apart_of_none hnone⟩ fun h => absurd h hport
    · rw [if_neg hc]
      have hnew : Socket.held { k with sk := { k.sk with localIp := ip, localPort := port }, state := .unconnected } =
          some port := Socket.held_of_live (by exact hc) hport
      have hold : k.held = some port ↔ k.sk.localPort = port :=
        Socket.held_eq_some_iff.trans (and_iff_left ⟨hport, hc⟩)
      rw [apart_iff hnew, if_neg hport, parts_iff hnew, hnew, hold]
      exact and_congr_right' ⟨fun h => h (.inr rfl), fun h _ => h⟩

/-- What a connect makes of the socket. -/
theorem connectStream_spec (k : Socket) (ip port jiffies : Nat) (sendOk : Bool) (after : TcpState)
    (hp : k.sk.localPort ≠ 0) :
    let l := connectStream k ip port jiffies sendOk after
    l.sk.localPort = k.sk.localPort ∧ l.sk.protocol = k.sk.protocol ∧ l.sk.type = k.sk.type ∧
      l.shutdownWr = k.shutdownWr ∧ l.queue = k.queue ∧
      l.sk.state = (if k.sk.state = .closed ∧ sendOk = true then after else k.sk.state) ∧
      l.sk.listening = k.sk.listening ∧
      (l.state = .unconnected ↔ ¬(k.sk.state = .closed ∧ sendOk = true ∧ after = .established)) := by
  unfold connectStream tcpConnect
  by_cases hst : k.sk.state = .closed
  · rw [if_neg (fun h => h hst), if_neg (fun h => hp h.1)]
    cases sendOk with
    | false => simp [hp, hst]
    | true =>
      by_cases ha : after = .established
      · simp [hp, hst, ha]
      · simp [hp, hst, ha]
  · rw [if_pos hst]
    simp [hst]

/-- The socket a connect leaves. -/
theorem connectSk_spec (k : Socket) (ip port jiffies : Nat) (sendOk : Bool) (after : TcpState)
    (hp : k.sk.localPort ≠ 0) :
    let l := connectSk k ip port jiffies sendOk after
    l.sk.localPort = k.sk.localPort ∧ l.sk.protocol = k.sk.protocol ∧ l.queue = k.queue ∧
      (l.Closed ↔ k.Closed ∧ (sendOk = true → after = .closed)) ∧ (l.Open ↔ Reopens k sendOk after) := by
  unfold connectSk
  by_cases ht : k.sk.type = sockStream
  · simp only [if_pos ht]
    obtain ⟨hport, hproto, htype, hwr, hqueue, hstate, hlisten, hopen⟩ :=
      connectStream_spec k ip port jiffies sendOk after hp
    refine ⟨hport, hproto, hqueue, ?_, ?_⟩
    · rw [Socket.Closed, Socket.Closed, htype, hwr, hstate]
      by_cases hst : k.sk.state = .closed
      · cases sendOk <;> simp [hst, and_assoc]
      · simp [hst]
    · rw [Socket.Open, Reopens, hlisten, hopen, and_iff_right ht]
  · simp only [if_neg ht]
    refine ⟨trivial, trivial, trivial, iff_of_false (fun h => ht h.1) (fun h => ht h.1.1), or_congr_right (iff_of_false nofun ?_)⟩
    exact fun h => ht h.1

theorem law_connect_iff (hb : Base s) (hs : Law s) (hk : s.socks i = some k) (ip port jiffies : Nat) (sendOk : Bool)
    (after : TcpState) :
    Law (sysConnect s i k ip port jiffies sendOk after) ↔ ConnectOk s i k sendOk after := by
  unfold sysConnect ConnectOk
  by_cases hp : k.sk.localPort = 0
  · rw [if_pos hp]
    have hheld : k.held = none := Socket.held_of_zero hp
    rcases inetAllocPort_cases hb.low with ⟨hex, next, -, heq⟩ | ⟨hex, p, next, -, hp0, htp, heq⟩
    · rw [heq]
      refine iff_of_true ⟨hs.apart, hs.tcp, hs.udp⟩ ?_
      split
      · exact fun _ => hex
      · exact fun h => absurd hp h
    · rw [heq]
      obtain ⟨hport, -, -, hclosed, -⟩ := connectSk_spec (k.setPort p) ip port jiffies sendOk after hp0
      refine (law_take_iff hb hs hk next htp).trans ?_
      rw [and_iff_left (parts_of_none hheld), Socket.held_eq_some_iff, hclosed]
      by_cases hc : k.Closed ∧ (sendOk = true → after = .closed)
      · rw [if_pos hc]
        exact iff_of_false (fun h => h.2.2 hc) fun h => hex (h hp)
      · rw [if_neg hc]
        exact iff_of_true ⟨hport, hp0, hc⟩ fun h => absurd hp h
  · rw [if_neg hp]
    obtain ⟨hport, hproto, -, hclosed, hopen⟩ := connectSk_spec k ip port jiffies sendOk after hp
    refine (law_set_iff hb hs hk s.next).trans ?_
    generalize connectSk k ip port jiffies sendOk after = l at hport hproto hclosed hopen ⊢
    by_cases hc : k.Closed ∧ (sendOk = true → after = .closed)
    · have hl : l.held = none := Socket.held_of_closed (hclosed.2 hc)
      rw [if_pos hc]
      exact iff_of_true ⟨.inl ((Socket.held_of_closed hc.1).trans hl.symm), apart_of_none hl⟩ fun h => absurd h hp
    · have hl : l.held = some k.sk.localPort := Socket.held_eq_some_iff.2 ⟨hport, hp, fun h => hc (hclosed.1 h)⟩
      rw [if_neg hc, apart_iff hl, hproto, hopen, keep_port_iff hp hl, imp_iff_right hp]

theorem law_sendto (hb : Base s) (hs : Law s) (hk : s.socks i = some k) : Law (sysSendto s i k) := by
  unfold sysSendto
  split
  · rename_i h
    rcases inetAllocPort_cases hb.low with ⟨-, next, -, heq⟩ | ⟨-, p, next, -, hp0, htp, heq⟩
    · rw [heq]
      exact ⟨hs.apart, hs.tcp, hs.udp⟩
    · rw [heq]
      refine (law_take_iff hb hs hk next htp).2 ⟨Socket.held_eq_some_iff.2 ⟨rfl, hp0, fun hc => ?_⟩,
        parts_of_none (Socket.held_of_zero h.2)⟩
      have ht : sockDgram = sockStream := h.1.symm.trans hc.1
      exact absurd ht (by decide)
  · exact hs

/-- What a listen makes of the socket. -/
theorem listen_spec (k : Socket) (backlog : Int) :
    if k.sk.type = sockStream ∧ k.sk.localPort ≠ 0 ∧ (k.sk.state = .closed ∨ k.sk.state = .closeWait)
    then (listen k backlog).sk.localPort = k.sk.localPort ∧ (listen k backlog).sk.protocol = k.sk.protocol ∧
      (listen k backlog).Open ∧ ¬(listen k backlog).Closed
    else (listen k backlog).held = k.held ∧ (listen k backlog).sk.protocol = k.sk.protocol ∧
      ((listen k backlog).Open ↔ k.Open) := by
  unfold listen sysListen tcpListen
  by_cases ht : k.sk.type = sockStream
  · by_cases hp : k.sk.localPort = 0
    · rw [if_neg fun h => h.2.1 hp, if_neg (not_not_intro ht), if_pos hp]
      exact ⟨rfl, rfl, Iff.rfl⟩
    · by_cases hst : k.sk.state = .closed ∨ k.sk.state = .closeWait
      · rw [if_pos ⟨ht, hp, hst⟩, if_neg (not_not_intro ht), if_neg hp, if_neg fun h => hst.elim h.1 h.2]
        exact ⟨rfl, rfl, .inl rfl, fun h => nomatch h.2.2⟩
      · rw [if_neg fun h => hst h.2.2, if_neg (not_not_intro ht), if_neg hp, if_pos (not_or.1 hst)]
        exact ⟨rfl, rfl, Iff.rfl⟩
  · rw [if_neg fun h => ht h.1, if_pos ht]
    exact ⟨rfl, rfl, Iff.rfl⟩

theorem law_listen_iff (hb : Base s) (hs : Law s) (hk : s.socks i = some k) (backlog : Int) :
    Law (s.set i (some (listen k backlog))) ↔ ListenOk s i k := by
  have hspec := listen_spec k backlog
  generalize listen k backlog = l at hspec
  unfold ListenOk
  split at hspec
  · rename_i h
    obtain ⟨hport, hproto, hopen, hclosed⟩ := hspec
    obtain ⟨ht, hp, hst⟩ := h
    have hl : l.held = some k.sk.localPort := Socket.held_eq_some_iff.2 ⟨hport, hp, hclosed⟩
    refine (law_set_iff hb hs hk s.next).trans ?_
    rw [apart_iff hl, hproto, imp_iff_right hopen, keep_port_iff hp hl, imp_iff_right ht, imp_iff_right hp,
      imp_iff_right hst]
  · rename_i h
    obtain ⟨hheld, hproto, hopen⟩ := hspec
    refine (law_same_iff hb hs hk hheld).trans (iff_of_true ?_ fun ht hp hst => absurd ⟨ht, hp, hst⟩ h)
    exact (apart_congr hopen hproto hheld).2 (hs.apart i k hk)

/-! ## Accept and the network -/

/-- What `tcp_receive` leaves of a socket. -/
structure Frame (sk sk' : Sock) : Prop where
  port : sk'.localPort = sk.localPort
  protocol : sk'.protocol = sk.protocol
  type : sk'.type = sk.type
  listening : sk'.listening = sk.listening

theorem Frame.refl (sk : Sock) : Frame sk sk := ⟨rfl, rfl, rfl, rfl⟩

theorem Frame.trans {sk sk' sk'' : Sock} (h : Frame sk sk') (h' : Frame sk' sk'') : Frame sk sk'' :=
  ⟨h'.port.trans h.port, h'.protocol.trans h.protocol, h'.type.trans h.type, h'.listening.trans h.listening⟩

theorem deliverData_frame (sk : Sock) (skb : SkBuff) : Frame sk (deliverData sk skb).1 := by
  unfold deliverData
  split
  · exact ⟨rfl, rfl, rfl, rfl⟩
  · exact Frame.refl sk

theorem ackFin_frame (sk : Sock) (state : TcpState) : Frame sk (ackFin sk state).1 := ⟨rfl, rfl, rfl, rfl⟩

theorem inEstablished_frame (sk : Sock) (skb : SkBuff) :
    Frame sk (inEstablished sk skb).sk ∧ (inEstablished sk skb).child = none := by
  have h : Frame sk (if skb.has tcpAck then { sk with sndUna := skb.ack } else sk) := by
    split
    · exact ⟨rfl, rfl, rfl, rfl⟩
    · exact Frame.refl sk
  unfold inEstablished
  generalize (if skb.has tcpAck then { sk with sndUna := skb.ack } else sk) = sk₁ at h
  simp only
  split
  · exact ⟨(h.trans (deliverData_frame sk₁ skb)).trans (ackFin_frame _ _), rfl⟩
  · exact ⟨h.trans (deliverData_frame sk₁ skb), rfl⟩

theorem inFinWait1_frame (sk : Sock) (skb : SkBuff) :
    Frame sk (inFinWait1 sk skb).sk ∧ (inFinWait1 sk skb).child = none := by
  have h : Frame sk (if skb.has tcpAck then { sk with state := .finWait2 } else sk) := by
    split
    · exact ⟨rfl, rfl, rfl, rfl⟩
    · exact Frame.refl sk
  unfold inFinWait1
  generalize (if skb.has tcpAck then { sk with state := .finWait2 } else sk) = sk₁ at h
  simp only
  split
  · exact ⟨h.trans (ackFin_frame _ _), rfl⟩
  · exact ⟨h, rfl⟩

theorem inFinWait2_frame (sk : Sock) (skb : SkBuff) :
    Frame sk (inFinWait2 sk skb).sk ∧ (inFinWait2 sk skb).child = none := by
  unfold inFinWait2
  split
  · exact ⟨ackFin_frame _ _, rfl⟩
  · exact ⟨Frame.refl sk, rfl⟩

theorem inSynSent_frame (sk : Sock) (skb : SkBuff) :
    Frame sk (inSynSent sk skb).sk ∧ (inSynSent sk skb).child = none := by
  unfold inSynSent
  split
  · exact ⟨⟨rfl, rfl, rfl, rfl⟩, rfl⟩
  split
  · exact ⟨⟨rfl, rfl, rfl, rfl⟩, rfl⟩
  · exact ⟨Frame.refl sk, rfl⟩

theorem inListen_frame (sk : Sock) (env : Env) (skb : SkBuff) :
    Frame sk (inListen sk env skb).sk ∧ ∀ c ∈ (inListen sk env skb).child, c.listening = false := by
  unfold inListen
  split
  · exact ⟨Frame.refl sk, forall_none⟩
  split
  · exact ⟨Frame.refl sk, forall_none⟩
  split
  · exact ⟨Frame.refl sk, forall_none⟩
  simp only
  split
  · refine ⟨⟨rfl, rfl, rfl, rfl⟩, fun c hc => ?_⟩
    cases hc
    rfl
  · exact ⟨Frame.refl sk, forall_none⟩

theorem frame_of_state (sk : Sock) (state : TcpState) : Frame sk { sk with state := state } := ⟨rfl, rfl, rfl, rfl⟩

/-- **A packet leaves a socket's port alone**, and queues nothing that listens. -/
theorem tcpInput_frame (sk : Sock) (env : Env) (skb : SkBuff) :
    Frame sk (tcpInput sk env skb).sk ∧ ∀ c ∈ (tcpInput sk env skb).child, c.listening = false := by
  have hno : ∀ {o : Outcome}, Frame sk o.sk ∧ o.child = none →
      Frame sk o.sk ∧ ∀ c ∈ o.child, c.listening = false := fun {o} ⟨hf, hc⟩ => ⟨hf, by rw [hc]; exact forall_none⟩
  unfold tcpInput
  split
  · exact ⟨Frame.refl sk, forall_none⟩
  split
  · exact ⟨⟨rfl, rfl, rfl, rfl⟩, forall_none⟩
  cases sk.state with
  | listen => exact inListen_frame sk env skb
  | synRcvd =>
    simp only
    split
    · exact ⟨⟨rfl, rfl, rfl, rfl⟩, forall_none⟩
    · exact ⟨Frame.refl sk, forall_none⟩
  | synSent => exact hno (inSynSent_frame sk skb)
  | established => exact hno (inEstablished_frame sk skb)
  | finWait1 => exact hno (inFinWait1_frame sk skb)
  | finWait2 => exact hno (inFinWait2_frame sk skb)
  | closing =>
    refine ⟨?_, forall_none⟩
    simp only [Outcome.quiet]
    split
    · exact frame_of_state sk _
    · exact Frame.refl sk
  | lastAck =>
    refine ⟨?_, forall_none⟩
    simp only [Outcome.quiet]
    split
    · exact frame_of_state sk _
    · exact Frame.refl sk
  | timeWait => exact ⟨frame_of_state sk _, forall_none⟩
  | closed => exact ⟨Frame.refl sk, forall_none⟩
  | closeWait => exact ⟨Frame.refl sk, forall_none⟩

/-- Nothing opens a closed connection from outside. -/
theorem tcpInput_closed {sk : Sock} (h : sk.state = .closed) (env : Env) (skb : SkBuff) :
    (tcpInput sk env skb).sk.state = .closed := by
  unfold tcpInput
  split
  · exact h
  split
  · rfl
  rw [h]
  exact h

theorem law_segment_iff (hb : Base s) (hs : Law s) (hk : s.socks i = some k) (skb : SkBuff) (env : Env) :
    Law (s.set i (some (input k skb env))) ↔
      (k.sk.type = sockStream → k.shutdownWr = true → k.sk.state ≠ .closed → (tcpInput k.sk env skb).sk.state = .closed →
        k.sk.localPort ≠ 0 → HeldElse s.held i k.sk.localPort) := by
  obtain ⟨hframe, -⟩ := tcpInput_frame k.sk env skb
  have hopen : (input k skb env).Open ↔ k.Open := by
    rw [Socket.Open, Socket.Open]
    exact or_congr_left (by rw [← hframe.listening]; exact Iff.rfl)
  by_cases hsame : (input k skb env).Closed ↔ k.Closed
  · have hheld : (input k skb env).held = k.held := Socket.held_congr hframe.port hsame
    refine (law_same_iff hb hs hk hheld).trans (iff_of_true ((apart_congr hopen hframe.protocol hheld).2 (hs.apart i k hk)) ?_)
    intro ht hw hst hst' _
    exact absurd (hsame.1 ⟨hframe.type.trans ht, hw, hst'⟩).2.2 hst
  · -- the packet closes the connection its owner has shut down
    have hk' : ¬k.Closed := fun hc => hsame (iff_of_true
      ⟨hframe.type.trans hc.1, hc.2.1, tcpInput_closed hc.2.2 env skb⟩ hc)
    have hl : (input k skb env).Closed := by
      by_contra hl
      exact hsame (iff_of_false hl hk')
    have hnone := Socket.held_of_closed hl
    refine (law_set_iff hb hs hk s.next).trans ?_
    rw [hnone, and_iff_left (apart_of_none hnone), and_iff_left (parts_of_none hnone), or_iff_right_of_imp parts_of_none]
    constructor
    · intro h _ _ _ _ hp
      exact h _ (Socket.held_of_live hk' hp)
    · intro h p hp
      obtain ⟨rfl, hp0, -⟩ := Socket.held_eq_some_iff.1 hp
      refine h (hframe.type.symm.trans hl.1) hl.2.1 (fun hst => hk' ⟨hframe.type.symm.trans hl.1, hl.2.1, hst⟩) hl.2.2 hp0

/-- What is queued on a socket does not matter. -/
theorem law_requeue (hb : Base s) (hs : Law s) (hk : s.socks i = some k) (hport : l.sk.localPort = k.sk.localPort)
    (hclosed : l.Closed ↔ k.Closed) (hopen : l.Open ↔ k.Open) (hproto : l.sk.protocol = k.sk.protocol) :
    Law (s.set i (some l)) := by
  have hheld := Socket.held_congr hport hclosed
  exact (law_same_iff hb hs hk hheld).2 ((apart_congr hopen hproto hheld).2 (hs.apart i k hk))

/-- A connection leaves the queue for a descriptor of its own. -/
theorem law_accept_iff (hb : Base s) (hs : Law s) (hi : s.socks i = none) {c : Sock} (hc : c.listening = false) :
    Law (s.set i (some ⟨.connected, c, false, []⟩)) ↔ (c.localPort ≠ 0 → Held s.held c.localPort) := by
  have hlive : ¬Socket.Closed ⟨.connected, c, false, []⟩ := fun h => Bool.false_ne_true h.2.1
  have hopen : ¬Socket.Open ⟨.connected, c, false, []⟩ := by
    rintro (h | h)
    · exact Bool.false_ne_true (hc.symm.trans h)
    · cases h
  have helse : ∀ p, HeldElse s.held i p ↔ Held s.held p := fun p => by
    have hnone : s.held i = none := by rw [State.held, hi]; rfl
    rw [held_iff s.held i, hnone]
    exact (or_iff_left nofun).symm
  refine (law_new_iff hb hs hi).trans ((and_iff_left fun ho => absurd ho hopen).trans ?_)
  constructor
  · exact fun h hp => (helse _).1 (h _ (Socket.held_of_live hlive hp))
  · intro h p hp
    obtain ⟨rfl, hp0, -⟩ := Socket.held_eq_some_iff.1 hp
    exact (helse _).2 (h hp0)

/-! ## Shutdown -/

theorem tcpClosed_spec (sk : Sock) :
    Frame sk (tcpClosed sk).1 ∧
      ((tcpClosed sk).1.state = .closed ↔ sk.state = .closed ∨ sk.state = .established ∨ sk.state = .synRcvd) ∧
      (tcpClosed sk).2 = decide (sk.state ≠ .closed) := by
  unfold tcpClosed tcpClose
  by_cases h0 : sk.state = .closed
  · simp [h0, Frame.refl]
  · by_cases h1 : sk.state = .established ∨ sk.state = .synRcvd
    · simp only [h0, h1, if_false, if_true, tcpCloseDone]
      exact ⟨⟨rfl, rfl, rfl, rfl⟩, iff_of_true trivial (.inr trivial), by simp [h0]⟩
    · by_cases h2 : sk.state = .closeWait
      · simp only [h0, h1, if_false]
        simp only [h2, if_true]
        exact ⟨⟨rfl, rfl, rfl, rfl⟩, by simp, by simp⟩
      · simp only [h0, h1, h2, if_false]
        exact ⟨Frame.refl sk, by simp [h0], by simp [h0]⟩

theorem inetFreePort_zero (s : State) : inetFreePort s 0 = s := rfl

theorem parts_live_iff :
    Parts s i k ↔ (k.sk.localPort ≠ 0 → ¬k.Closed → HeldElse s.held i k.sk.localPort) := by
  constructor
  · exact fun h hp hc => h _ (Socket.held_of_live hc hp)
  · intro h p hp
    obtain ⟨rfl, hp0, hc⟩ := Socket.held_eq_some_iff.1 hp
    exact h hp0 hc

theorem live_of_open (h : k.sk.state ≠ .closed) : ¬k.Closed := fun hc => h hc.2.2

theorem law_shutdown_iff (hb : Base s) (hs : Law s) (hk : s.socks i = some k) :
    Law (sysShutdown s i k) ↔ ShutdownOk s i k := by
  unfold sysShutdown ShutdownOk
  by_cases ht : k.sk.type = sockStream
  · simp only [if_pos ht, imp_iff_right ht]
    obtain ⟨hframe, hst, hfree⟩ := tcpClosed_spec k.sk
    rw [hfree]
    generalize (tcpClosed k.sk).1 = sk at hframe hst ⊢
    by_cases hclosed : k.sk.state = .closed
    · -- `tcp_close` returns at once
      have hl : Socket.Closed ⟨k.state, sk, true, k.queue⟩ := ⟨hframe.type.trans ht, rfl, hst.2 (.inl hclosed)⟩
      have hnone := Socket.held_of_closed hl
      simp only [hclosed, ne_eq, not_true_eq_false, decide_false, freeAfter, Bool.false_eq_true, if_false, if_true]
      refine (law_set_iff hb hs hk s.next).trans ?_
      rw [hnone, and_iff_left (apart_of_none hnone), and_iff_left (parts_of_none hnone),
        or_iff_right_of_imp parts_of_none, parts_live_iff]
    · have hlive := live_of_open hclosed
      simp only [hclosed, ne_eq, not_false_eq_true, decide_true, freeAfter, if_true, if_false, hlive, forall_const]
      by_cases hp : k.sk.localPort = 0
      · rw [hp, inetFreePort_zero]
        have hl : Socket.held ⟨k.state, sk, true, k.queue⟩ = none := Socket.held_of_zero (hframe.port.trans hp)
        refine iff_of_true ((law_set_iff hb hs hk s.next).2 ⟨.inl ?_, apart_of_none hl⟩) fun h => absurd rfl h
        rw [hl, Socket.held_of_zero hp]
      · refine (law_give_iff hb hs hk hp (Socket.held_of_live hlive hp)).trans ?_
        rw [forall_prop_of_true hp]
        by_cases hup : k.sk.state = .established ∨ k.sk.state = .synRcvd
        · have hnone : Socket.held ⟨k.state, sk, true, k.queue⟩ = none :=
            Socket.held_of_closed ⟨hframe.type.trans ht, rfl, hst.2 (.inr hup)⟩
          rw [hnone, and_iff_left (apart_of_none hnone), and_iff_left ⟨nofun, parts_of_none hnone⟩, and_iff_right hup]
        · -- the port is given back while the connection goes on
          refine iff_of_false (fun h => h.1.2.1 (Socket.held_eq_some_iff.2 ⟨hframe.port, hp, fun hc => ?_⟩)) fun h => hup h.1
          exact (hst.1 hc.2.2).elim hclosed hup
  · simp only [if_neg ht]
    refine iff_of_true (law_requeue hb hs hk rfl (iff_of_false (fun h => ht h.1) fun h => ht h.1) Iff.rfl rfl) ?_
    exact fun h => absurd h ht

/-! ## What every step keeps -/

/-- The socket in slot `i` becomes `l?`, and `inet_free_port` is called for `fr`. -/
structure Moves (s s' : State) (i : Nat) (l? : Option Socket) (fr : List Nat) : Prop where
  socks : s'.socks = Function.update s.socks i l?
  same : s'.udp = s'.tcp
  low : ephemeralPortLow ≤ s'.next
  frees : s'.frees = fr ++ s.frees

variable {l? : Option Socket} {fr : List Nat}

theorem Moves.base (h : Moves s s' i l? fr) (hb : Base s) (hq : ∀ l ∈ l?, ∀ c ∈ l.queue, c.listening = false) :
    Base s' := by
  refine ⟨h.same, h.low, fun j l hl => ?_⟩
  rw [h.socks] at hl
  by_cases hji : j = i
  · subst hji
    rw [Function.update_self] at hl
    exact hq l hl
  · rw [Function.update_of_ne hji] at hl
    exact hb.queue j l hl

theorem moves_set (hb : Base s) : Moves s (s.set i l?) i l? [] := ⟨rfl, hb.same, hb.low, rfl⟩

theorem moves_stay (hb : Base s) (hk : s.socks i = some k) {next : Nat} (hn : ephemeralPortLow ≤ next) :
    Moves s { s with next := next } i (some k) [] :=
  ⟨by rw [← hk, Function.update_eq_self], hb.same, hn, rfl⟩

theorem moves_take (hb : Base s) {next : Nat} (hn : ephemeralPortLow ≤ next) :
    Moves s ({ s with
      next := next
      tcp := Function.update s.tcp p true
      udp := Function.update s.udp p true }.set i l?) i l? [] :=
  ⟨rfl, by change Function.update s.udp p true = Function.update s.tcp p true; rw [hb.same], hn, rfl⟩

theorem moves_free (hb : Base s) (free : Bool) :
    Moves s ((freeAfter s p free).set i l?) i l? (if free = true ∧ p ≠ 0 then [p] else []) := by
  cases free with
  | false => exact moves_set hb
  | true =>
    by_cases hp : p = 0
    · subst hp
      exact moves_set hb
    · rw [freeAfter, if_pos rfl, inetFreePort, if_neg hp, if_pos ⟨rfl, hp⟩]
      exact ⟨rfl, by change Function.update s.udp p false = Function.update s.tcp p false; rw [hb.same], hb.low, rfl⟩

theorem moves_bind (hb : Base s) (ip port : Nat) :
    ∃ l, l.queue = k.queue ∧ Moves s (sysBind s i k ip port) i (some l) [] := by
  unfold sysBind
  split
  · rcases inetAllocPort_cases hb.low with ⟨-, next, hn, heq⟩ | ⟨-, p, next, hn, -, -, heq⟩
    · rw [heq]
      exact ⟨_, by rfl, ⟨rfl, hb.same, hn, rfl⟩⟩
    · rw [heq]
      exact ⟨_, by rfl, moves_take hb hn⟩
  · exact ⟨_, by rfl, moves_set hb⟩

theorem moves_connect (hb : Base s) (hk : s.socks i = some k) (ip port jiffies : Nat) (sendOk : Bool) (after : TcpState) :
    ∃ l, l.queue = k.queue ∧ Moves s (sysConnect s i k ip port jiffies sendOk after) i (some l) [] := by
  unfold sysConnect
  split
  · rcases inetAllocPort_cases hb.low with ⟨-, next, hn, heq⟩ | ⟨-, p, next, hn, hp0, -, heq⟩
    · rw [heq]
      exact ⟨k, rfl, moves_stay hb hk hn⟩
    · rw [heq]
      exact ⟨_, (connectSk_spec (k.setPort p) ip port jiffies sendOk after hp0).2.2.1, moves_take hb hn⟩
  · rename_i hp
    exact ⟨_, (connectSk_spec k ip port jiffies sendOk after hp).2.2.1, moves_set hb⟩

theorem moves_sendto (hb : Base s) (hk : s.socks i = some k) :
    ∃ l, l.queue = k.queue ∧ Moves s (sysSendto s i k) i (some l) [] := by
  unfold sysSendto
  split
  · rcases inetAllocPort_cases hb.low with ⟨-, next, hn, heq⟩ | ⟨-, p, next, hn, -, -, heq⟩
    · rw [heq]
      exact ⟨k, rfl, moves_stay hb hk hn⟩
    · rw [heq]
      exact ⟨_, by rfl, moves_take hb hn⟩
  · exact ⟨k, rfl, moves_stay hb hk hb.low⟩

theorem listen_queue (k : Socket) (backlog : Int) : (listen k backlog).queue = k.queue := by
  unfold listen
  split
  rfl

theorem moves_shutdown (hb : Base s) :
    ∃ l free, l.queue = k.queue ∧ (free = true → k.sk.state ≠ .closed) ∧
      Moves s (sysShutdown s i k) i (some l) (if free = true ∧ k.sk.localPort ≠ 0 then [k.sk.localPort] else []) := by
  unfold sysShutdown
  by_cases ht : k.sk.type = sockStream
  · simp only [if_pos ht]
    refine ⟨⟨k.state, (tcpClosed k.sk).1, true, k.queue⟩, (tcpClosed k.sk).2, rfl, fun h => ?_, moves_free hb _⟩
    rw [(tcpClosed_spec k.sk).2.2] at h
    exact of_decide_eq_true h
  · simp only [if_neg ht]
    exact ⟨{ k with shutdownWr := true }, false, rfl, nofun, moves_set hb⟩

/-- **Only a port that its owner holds is given back.** -/
theorem Moves.frees_marked {free : Bool} (h : Moves s s' i l? (if free = true ∧ k.sk.localPort ≠ 0 then [k.sk.localPort] else []))
    (hs : Law s) (hk : s.socks i = some k) (hfree : free = true → k.sk.state ≠ .closed) :
    ∀ q, s'.frees = q :: s.frees → s.tcp q = true := by
  intro q hq
  rw [h.frees] at hq
  split at hq
  · rename_i hf
    obtain rfl : k.sk.localPort = q := by
      rw [List.singleton_append, List.cons.injEq] at hq
      exact hq.1
    exact (hs.tcp _).2 ⟨i, (State.held_of_some hk).trans (Socket.held_of_live (live_of_open (hfree hf.1)) hf.2)⟩
  · exact absurd hq.symm (List.cons_ne_self _ _)

theorem Moves.frees_none (h : Moves s s' i l? []) : ∀ q, s'.frees = q :: s.frees → s.tcp q = true := by
  intro q hq
  rw [h.frees] at hq
  exact absurd hq.symm (List.cons_ne_self _ _)

/-- What an accept without a descriptor does: the queue is one shorter. -/
theorem forall_accept_none {Q : State → Prop} : (∀ s', sysAccept s i k none = some s' → Q s') ↔
    (k.sk.type = sockStream → k.sk.state = .listen → ∀ c queue, k.queue = c :: queue →
      Q (s.set i (some (k.dequeue queue)))) := by
  unfold sysAccept
  by_cases hst : k.sk.type = sockStream ∧ k.sk.state = .listen
  · rw [if_pos hst, imp_iff_right hst.1, imp_iff_right hst.2]
    cases k.queue with
    | nil => simp
    | cons c queue => simp
  · rw [if_neg hst]
    exact iff_of_true nofun fun h1 h2 => absurd ⟨h1, h2⟩ hst

/-- With one, and its first has it. -/
theorem forall_accept_some {Q : State → Prop} {j : Nat} (hk : s.socks i = some k) :
    (∀ s', sysAccept s i k (some j) = some s' → Q s') ↔
      (k.sk.type = sockStream → k.sk.state = .listen → ∀ c queue, k.queue = c :: queue → s.socks j = none →
        Q ((s.set i (some (k.dequeue queue))).set j (some ⟨.connected, c, false, []⟩))) := by
  have hfree : ∀ queue, (s.set i (some (k.dequeue queue))).socks j = none ↔ s.socks j = none := fun queue => by
    by_cases hji : j = i
    · subst hji
      rw [hk]
      exact iff_of_false (fun h => nomatch (Function.update_self _ _ _).symm.trans h) nofun
    · exact iff_of_eq (congrArg (· = none) (Function.update_of_ne hji _ _))
  unfold sysAccept
  by_cases hst : k.sk.type = sockStream ∧ k.sk.state = .listen
  · rw [if_pos hst, imp_iff_right hst.1, imp_iff_right hst.2]
    cases k.queue with
    | nil => simp
    | cons c queue =>
      simp only [hfree]
      by_cases hj : s.socks j = none <;> simp [hj]
  · rw [if_neg hst]
    exact iff_of_true nofun fun h1 h2 => absurd ⟨h1, h2⟩ hst

/-- One connection fewer in the queue. -/
theorem base_dequeue (hb : Base s) (hk : s.socks i = some k) {c : Sock} {queue : List Sock} (hq : k.queue = c :: queue) :
    Base (s.set i (some (k.dequeue queue))) := by
  refine (moves_set hb).base hb fun m hm d hd => ?_
  cases hm
  exact hb.queue i k hk d (hq ▸ List.mem_cons_of_mem c hd)

theorem accept_base {j : Option Nat} (hb : Base s) (hk : s.socks i = some k) :
    ∀ s', sysAccept s i k j = some s' → Base s' ∧ s'.frees = s.frees := by
  cases j with
  | none => exact forall_accept_none.2 fun _ _ c queue hq => ⟨base_dequeue hb hk hq, rfl⟩
  | some j =>
    refine (forall_accept_some hk).2 fun _ _ c queue hq _ => ⟨?_, rfl⟩
    have hb₁ := base_dequeue hb hk hq
    refine (moves_set hb₁).base hb₁ fun m hm d hd => ?_
    cases hm
    cases hd

theorem of_mem_modify {α : Type} {f : α → α} {n : Nat} {xs : List α} {x : α} (h : x ∈ xs.modify n f) :
    ∃ y ∈ xs, x = y ∨ x = f y := by
  obtain ⟨m, hm⟩ := List.mem_iff_getElem?.1 h
  rw [List.getElem?_modify] at hm
  obtain ⟨y, hy, rfl⟩ := Option.map_eq_some_iff.1 hm
  refine ⟨y, List.mem_of_getElem? hy, ?_⟩
  split
  · exact .inr rfl
  · exact .inl rfl

/-- What a step does besides: the socket of one slot changes, and perhaps a port is given back. -/
theorem step_frame {a : Label} (hb : Base s) (h : step s a = some s') :
    Base s' ∧ (Law s → ∀ q, s'.frees = q :: s.frees → s.tcp q = true) := by
  have hsame : ∀ {i l s'}, (∃ l' : Socket, l'.queue = l.queue ∧ Moves s s' i (some l') []) → s.socks i = some l →
      Base s' ∧ (Law s → ∀ q, s'.frees = q :: s.frees → s.tcp q = true) := by
    rintro i l s' ⟨l', hq, hm⟩ hl
    refine ⟨hm.base hb fun m hm' c hc => ?_, fun _ => hm.frees_none⟩
    cases hm'
    exact hb.queue i l hl c (hq ▸ hc)
  cases a with
  | socket i type protocol rcvbuf =>
    simp only [step] at h
    split at h
    · cases h
      refine ⟨(moves_set hb).base hb fun m hm c hc => ?_, fun _ => (moves_set (i := i) hb).frees_none⟩
      cases hm
      cases hc
    · cases h
  | bind i ip port =>
    obtain ⟨k, hk, rfl⟩ := Option.map_eq_some_iff.1 h
    exact hsame (moves_bind hb ip port) hk
  | connect i ip port jiffies sendOk after =>
    obtain ⟨k, hk, rfl⟩ := Option.map_eq_some_iff.1 h
    exact hsame (moves_connect hb hk ip port jiffies sendOk after) hk
  | sendto i =>
    obtain ⟨k, hk, rfl⟩ := Option.map_eq_some_iff.1 h
    exact hsame (moves_sendto hb hk) hk
  | listen i backlog =>
    obtain ⟨k, hk, rfl⟩ := Option.map_eq_some_iff.1 h
    exact hsame ⟨_, listen_queue k backlog, moves_set hb⟩ hk
  | accept i j =>
    obtain ⟨k, hk, h⟩ := Option.bind_eq_some_iff.1 h
    obtain ⟨hb', hfrees⟩ := accept_base hb hk s' h
    refine ⟨hb', fun _ q hq => ?_⟩
    rw [hfrees] at hq
    exact absurd hq.symm (List.cons_ne_self _ _)
  | segment i skb env =>
    obtain ⟨k, hk, h⟩ := Option.bind_eq_some_iff.1 h
    split at h
    · cases h
      refine ⟨(moves_set hb).base hb fun m hm c hc => ?_, fun _ => (moves_set (i := i) hb).frees_none⟩
      cases hm
      rcases List.mem_append.1 hc with hc | hc
      · exact hb.queue i k hk c hc
      · exact (tcpInput_frame k.sk env skb).2 c (Option.mem_toList.1 hc)
    · cases h
  | queued i n skb env =>
    obtain ⟨k, hk, rfl⟩ := Option.map_eq_some_iff.1 h
    refine ⟨(moves_set hb).base hb fun m hm c hc => ?_, fun _ => (moves_set (i := i) hb).frees_none⟩
    cases hm
    obtain ⟨d, hd, rfl | rfl⟩ := of_mem_modify hc
    · exact hb.queue i k hk _ hd
    · exact (tcpInput_frame d env skb).1.listening.trans (hb.queue i k hk d hd)
  | shutdown i =>
    obtain ⟨k, hk, rfl⟩ := Option.map_eq_some_iff.1 h
    obtain ⟨l, free, hq, hfree, hm⟩ := moves_shutdown (i := i) (k := k) hb
    refine ⟨hm.base hb fun m hm' c hc => ?_, fun hs => hm.frees_marked hs hk hfree⟩
    cases hm'
    exact hb.queue i k hk c (hq ▸ hc)
  | close i =>
    obtain ⟨k, hk, rfl⟩ := Option.map_eq_some_iff.1 h
    exact ⟨(moves_set hb).base hb forall_none, fun _ => (moves_set (i := i) hb).frees_none⟩

/-! ## Runs -/

theorem forall_map_iff {f : Socket → State} {P : State → Prop} {k? : Option Socket} :
    (∀ s', k?.map f = some s' → P s') ↔ ∀ k ∈ k?, P (f k) := by
  cases k? <;> simp

theorem forall_bind_iff {f : Socket → Option State} {P : State → Prop} {k? : Option Socket} :
    (∀ s', k?.bind f = some s' → P s') ↔ ∀ k ∈ k?, ∀ s', f k = some s' → P s' := by
  cases k? <;> simp

theorem law_sysAccept_iff (hb : Base s) (hs : Law s) (hk : s.socks i = some k) (j : Option Nat) :
    (∀ s', sysAccept s i k j = some s' → Law s') ↔
      (k.sk.type = sockStream → k.sk.state = .listen → ∀ j' ∈ j, s.socks j' = none →
        ∀ c ∈ k.queue.head?, c.localPort ≠ 0 → Held s.held c.localPort) := by
  -- the queue of the listener is one shorter, and nothing else of it counts
  have hlaw : ∀ queue, Law (s.set i (some (k.dequeue queue))) := fun queue =>
    law_requeue hb hs hk rfl Iff.rfl Iff.rfl rfl
  have hheld : ∀ queue, (s.set i (some (k.dequeue queue))).held = s.held := fun queue => by
    rw [held_of_update rfl]
    exact (congrArg (Function.update s.held i) (State.held_of_some hk).symm).trans (Function.update_eq_self _ _)
  cases j with
  | none => exact iff_of_true (forall_accept_none.2 fun _ _ _ queue _ => hlaw queue) fun _ _ => forall_none
  | some j =>
    refine (forall_accept_some hk).trans (imp_congr_right fun _ => imp_congr_right fun _ => ?_)
    have hone : ∀ c queue, k.queue = c :: queue → s.socks j = none →
        (Law ((s.set i (some (k.dequeue queue))).set j (some ⟨.connected, c, false, []⟩)) ↔
          (c.localPort ≠ 0 → Held s.held c.localPort)) := fun c queue hq hj => by
      have hji : j ≠ i := by
        rintro rfl
        rw [hk] at hj
        cases hj
      rw [← hheld queue]
      exact law_accept_iff (base_dequeue hb hk hq) (hlaw queue) ((Function.update_of_ne hji _ _).trans hj)
        (hb.queue i k hk c (hq ▸ List.mem_cons_self))
    constructor
    · intro h j' hj' hnone c hc
      cases hj'
      obtain ⟨queue, hq⟩ : ∃ queue, k.queue = c :: queue := List.head?_eq_some_iff.1 hc
      exact (hone c queue hq hnone).1 (h c queue hq hnone)
    · intro h c queue hq hnone
      exact (hone c queue hq hnone).2 (h j rfl hnone c (by rw [hq]; rfl))

theorem law_step_iff (hb : Base s) (hs : Law s) (a : Label) : (∀ s', step s a = some s' → Law s') ↔ PortOk s a := by
  cases a with
  | socket i type protocol rcvbuf =>
    refine iff_of_true (fun s' h => ?_) trivial
    simp only [step] at h
    split at h
    · rename_i hi
      cases h
      have hnone : (sysSocket type protocol rcvbuf).held = none := Socket.held_of_zero rfl
      exact (law_new_iff hb hs hi).2 ⟨parts_of_none hnone, apart_of_none hnone⟩
    · cases h
  | bind i ip port => exact forall_map_iff.trans (forall₂_congr fun k hk => law_bind_iff hb hs hk ip port)
  | connect i ip port jiffies sendOk after =>
    exact forall_map_iff.trans (forall₂_congr fun k hk => law_connect_iff hb hs hk ip port jiffies sendOk after)
  | sendto i => exact iff_of_true (forall_map_iff.2 fun k hk => law_sendto hb hs hk) trivial
  | listen i backlog => exact forall_map_iff.trans (forall₂_congr fun k hk => law_listen_iff hb hs hk backlog)
  | accept i j => exact forall_bind_iff.trans (forall₂_congr fun k hk => law_sysAccept_iff hb hs hk j)
  | segment i skb env =>
    refine forall_bind_iff.trans (forall₂_congr fun k hk => ?_)
    by_cases hmatch : k.sk.protocol % 256 = ipprotoTcp ∧ skb.dstPort = k.sk.localPort
    · rw [if_pos hmatch, imp_iff_right hmatch.1, imp_iff_right hmatch.2]
      simp only [Option.some.injEq, forall_eq']
      exact law_segment_iff hb hs hk skb env
    · rw [if_neg hmatch]
      exact iff_of_true nofun fun h1 h2 => absurd ⟨h1, h2⟩ hmatch
  | queued i n skb env =>
    exact iff_of_true (forall_map_iff.2 fun k hk => law_requeue hb hs hk rfl Iff.rfl Iff.rfl rfl) trivial
  | shutdown i => exact forall_map_iff.trans (forall₂_congr fun k hk => law_shutdown_iff hb hs hk)
  | close i => exact forall_map_iff.trans (forall₂_congr fun k hk => law_drop_iff hb hs hk)

structure Inv (s : State) : Prop where
  base : Base s
  law : Law s

theorem kept_iff_portOk (s : State) (a : Label) (h : Inv s) : Kept s a ↔ PortOk s a := by
  rw [← law_step_iff h.base h.law a]
  exact ⟨fun hk s' hs => (hk s' hs).1, fun hl s' hs => ⟨hl s' hs, (step_frame h.base hs).2 h.law⟩⟩

theorem Inv.start (h : machine.init s) : Inv s := by
  have hs : s = boot := h
  subst hs
  have hnone : ∀ p, ¬Held boot.held p := by
    rintro p ⟨i, hi⟩
    cases hi
  exact ⟨⟨rfl, Nat.le_refl _, fun _ => forall_none⟩, fun _ => forall_none, fun p => iff_of_false nofun (hnone p), fun p => iff_of_false nofun (hnone p)⟩

end Ports
end Pico
