import Picomimi.NetRun
/-!
# NetListen — what the network does to a listening socket

Every segment for a port goes through one lookup, and that finds no socket (`tcpReceive_cleared`): no reset comes to a listener
or to a connection.  What is left are the calls of the owners, and a call on one socket leaves every other listener one
(`call_stays`).  `listenLaw_run` has both, over any run.
-/
namespace Pico
namespace NetCore

open Lib Net

/-- The owner of the socket closes it. -/
def Closes (i : Nat) : NetLabel → Prop
  | .call (.shutdown j) | .call (.close j) | .close j | .closeDone j => j = i
  | _ => False

/-- In any state but `TCP_LISTEN` and `TCP_CLOSED`. -/
def Connection (sk : Sock) : Prop := sk.state ≠ .listen ∧ sk.state ≠ .closed

/-- **A sequence number the connection could expect**: one in its window; before it has heard from its peer, any. -/
def Expects (sk : Sock) (seq : Nat) : Prop :=
  sk.state = .synSent ∨ seq = sk.rcvNxt ∨ sub32 seq sk.rcvNxt < sk.rcvWnd

/-- The listener is one still, with the error it had. -/
def Stays (i : Nat) (s t : Stack) : Prop := ∀ k, s.sock i = some k → k.sk.state = .listen →
  ∃ l, t.sock i = some l ∧ l.sk.state = .listen ∧ l.sk.err = k.sk.err

/-- **What a step must do**: leave every listener that its owner does not close, and act on a reset only where it is
expected. -/
def ListenLaw (devs : List NetDevice) (dev : NetDevice) (a : Answers) (s : Stack) (x : NetLabel) : Prop :=
  ∀ t, (netMachine devs dev a).step s x = some t →
    (∀ i, ¬Closes i x → Stays i s t) ∧
      ∀ skb env, x = .segment skb env → skb.segment.has tcpRst = true → ∀ i k, s.sock i = some k → Connection k.sk →
        t.sock i ≠ s.sock i → Expects k.sk skb.segment.seq

/-! ## The owner's calls -/

section Calls

open Ports

variable {s s' : Ports.State} {i j : Nat} {k l : Ports.Socket}

/-- Neither the state nor the error of a listener moves. -/
def SameListener (k l : Ports.Socket) : Prop := k.sk.state = .listen → l.sk.state = .listen ∧ l.sk.err = k.sk.err

/-- The call has put another socket in the slot, and changed no listener in it. -/
def Renews (s s' : Ports.State) (i : Nat) (k : Ports.Socket) : Prop :=
  ∃ l, s'.socks = Function.update s.socks i (some l) ∧ SameListener k l

theorem SameListener.refl (k : Ports.Socket) : SameListener k k := fun h => ⟨h, rfl⟩

theorem renews_same (hk : s.socks i = some k) (h : s'.socks = s.socks) : Renews s s' i k :=
  ⟨k, by rw [h, ← hk, Function.update_eq_self], .refl k⟩

theorem inetAllocPort_socks {r : Option Nat} (h : inetAllocPort s = (r, s')) : s'.socks = s.socks := by
  have hsocks : (inetAllocPort s).2.socks = s.socks := by
    unfold inetAllocPort
    split <;> rfl
  rwa [h] at hsocks

/-- A socket put in the slot once a port is found. -/
theorem renews_set (h : s'.socks = s.socks) (hl : SameListener k l) : Renews s (s'.set i (some l)) i k :=
  ⟨l, congrArg (fun f : Nat → Option Ports.Socket => Function.update f i (some l)) h, hl⟩

theorem renews_bind (s : Ports.State) (i : Nat) (k : Ports.Socket) (ip port : Nat) : Renews s (sysBind s i k ip port) i k := by
  unfold sysBind
  dsimp only
  split
  · split
    · rename_i h
      exact renews_set (inetAllocPort_socks h) fun hst => ⟨hst, rfl⟩
    · rename_i h
      exact renews_set (inetAllocPort_socks h) fun hst => ⟨hst, rfl⟩
  · exact renews_set rfl fun hst => ⟨hst, rfl⟩

theorem connectSk_same (k : Ports.Socket) (ip port jiffies : Nat) (sendOk : Bool) (after : TcpState) :
    SameListener k (connectSk k ip port jiffies sendOk after) := by
  intro hst
  unfold connectSk connectStream tcpConnect
  split
  · have hne : k.sk.state ≠ .closed := by
      rw [hst]
      decide
    rw [if_pos hne]
    exact ⟨hst, rfl⟩
  · exact ⟨hst, rfl⟩

theorem renews_connect (hk : s.socks i = some k) (ip port jiffies : Nat) (sendOk : Bool) (after : TcpState) :
    Renews s (sysConnect s i k ip port jiffies sendOk after) i k := by
  unfold sysConnect
  split
  · split
    · rename_i h
      exact renews_same hk (inetAllocPort_socks h)
    · rename_i p _ h
      exact renews_set (inetAllocPort_socks h) fun hst => connectSk_same (k.setPort p) ip port jiffies sendOk after hst
  · exact renews_set rfl (connectSk_same k ip port jiffies sendOk after)

theorem renews_sendto (hk : s.socks i = some k) : Renews s (sysSendto s i k) i k := by
  unfold sysSendto
  split
  · split
    · rename_i h
      exact renews_same hk (inetAllocPort_socks h)
    · rename_i h
      exact renews_set (inetAllocPort_socks h) fun hst => ⟨hst, rfl⟩
  · exact renews_same hk rfl

theorem listen_same (k : Ports.Socket) (backlog : Int) : SameListener k (listen k backlog) := by
  intro hst
  have hno : ∀ sk : Sock, sk.state = .listen → tcpListen sk = (sk, -einval) := by
    intro sk hsk
    unfold tcpListen
    rw [hsk]
    exact if_pos (by decide)
  have hsk : (listen k backlog).sk = (sysListen k.sk backlog).1 := rfl
  rw [hsk]
  unfold sysListen
  split
  · exact ⟨hst, rfl⟩
  · split
    · exact ⟨hst, rfl⟩
    · rw [hno _ (by exact hst)]
      exact ⟨hst, rfl⟩

/-- What is in the slot is not the listener any more, or still is. -/
theorem stays_of_renews (h : Renews s s' j k) (hj : s.socks j = some k) (i : Nat) : ∀ m, s.socks i = some m →
    m.sk.state = .listen → ∃ l, s'.socks i = some l ∧ l.sk.state = .listen ∧ l.sk.err = m.sk.err := by
  intro m hm hst
  obtain ⟨l, hl, hsame⟩ := h
  rw [hl]
  by_cases hij : i = j
  · rw [hij] at hm ⊢
    rw [hj] at hm
    cases hm
    exact ⟨l, Function.update_self _ _ _, hsame hst⟩
  · exact ⟨m, (Function.update_of_ne hij _ _).trans hm, hst, rfl⟩

/-- Another slot is filled, or cleared. -/
theorem stays_of_ne {l? : Option Ports.Socket} (h : s'.socks = Function.update s.socks j l?) (hij : i ≠ j) :
    ∀ m, s.socks i = some m → m.sk.state = .listen →
      ∃ l, s'.socks i = some l ∧ l.sk.state = .listen ∧ l.sk.err = m.sk.err := by
  intro m hm hst
  rw [h]
  exact ⟨m, (Function.update_of_ne hij _ _).trans hm, hst, rfl⟩

theorem freeAfter_socks (s : Ports.State) (port : Nat) (free : Bool) : (freeAfter s port free).socks = s.socks := by
  unfold freeAfter inetFreePort
  split
  · split <;> rfl
  · rfl

/-- An accept fills a free slot. -/
theorem accept_stays {j' : Option Nat} (hk : s.socks j = some k) (h : sysAccept s j k j' = some s') (i : Nat) :
    ∀ m, s.socks i = some m → m.sk.state = .listen →
      ∃ l, s'.socks i = some l ∧ l.sk.state = .listen ∧ l.sk.err = m.sk.err := by
  unfold sysAccept at h
  split at h
  · cases hq : k.queue with
    | nil =>
      rw [hq] at h
      cases h
    | cons c queue =>
      rw [hq] at h
      have hsame : SameListener k (k.dequeue queue) := fun hst => ⟨hst, rfl⟩
      have hstay := stays_of_renews (@renews_set s s j k _ rfl hsame) hk i
      cases j' with
      | none =>
        cases h
        exact hstay
      | some n =>
        dsimp only at h
        by_cases hn : (s.set j (some (k.dequeue queue))).socks n = none
        · rw [if_pos hn] at h
          cases h
          intro m hm hst
          obtain ⟨l, hl, hlst, hlerr⟩ := hstay m hm hst
          have hin : i ≠ n := by
            intro hin
            rw [hin, hn] at hl
            cases hl
          exact ⟨l, (Function.update_of_ne hin _ _).trans hl, hlst, hlerr⟩
        · rw [if_neg hn] at h
          cases h
  · cases h

/-- **A call leaves every listener that it does not close.** -/
theorem call_stays (c : Ports.Label) (hc : IsCall c) (hi : ¬Closes i (.call c)) (h : Ports.step s c = some s') :
    ∀ m, s.socks i = some m → m.sk.state = .listen →
      ∃ l, s'.socks i = some l ∧ l.sk.state = .listen ∧ l.sk.err = m.sk.err := by
  cases c with
  | socket j type protocol rcvbuf =>
    simp only [Ports.step] at h
    split at h
    · rename_i hj
      cases h
      intro m hm
      have hij : i ≠ j := by
        intro hij
        rw [hij, hj] at hm
        cases hm
      exact stays_of_ne rfl hij m hm
    · cases h
  | bind j ip port =>
    obtain ⟨k, hk, rfl⟩ := Option.map_eq_some_iff.1 h
    exact stays_of_renews (renews_bind s j k ip port) hk i
  | connect j ip port jiffies sendOk after =>
    obtain ⟨k, hk, rfl⟩ := Option.map_eq_some_iff.1 h
    exact stays_of_renews (renews_connect hk ip port jiffies sendOk after) hk i
  | sendto j =>
    obtain ⟨k, hk, rfl⟩ := Option.map_eq_some_iff.1 h
    exact stays_of_renews (renews_sendto hk) hk i
  | listen j backlog =>
    obtain ⟨k, hk, rfl⟩ := Option.map_eq_some_iff.1 h
    exact stays_of_renews (renews_set rfl (listen_same k backlog)) hk i
  | accept j j' =>
    obtain ⟨k, hk, h⟩ := Option.bind_eq_some_iff.1 h
    exact accept_stays hk h i
  | segment j skb env => cases hc
  | queued j n skb env => cases hc
  | shutdown j =>
    obtain ⟨k, hk, rfl⟩ := Option.map_eq_some_iff.1 h
    have hsocks : ∃ l?, (sysShutdown s j k).socks = Function.update s.socks j l? := by
      unfold sysShutdown
      dsimp only
      split
      · exact ⟨_, congrArg (fun f : Nat → Option Ports.Socket => Function.update f j _) (freeAfter_socks s _ _)⟩
      · exact ⟨_, rfl⟩
    obtain ⟨l?, hl⟩ := hsocks
    exact stays_of_ne hl fun hij => hi hij.symm
  | close j =>
    obtain ⟨k, hk, rfl⟩ := Option.map_eq_some_iff.1 h
    exact stays_of_ne rfl fun hij => hi hij.symm

end Calls

/-! ## Runs -/

section Law

variable {devs : List NetDevice} {dev : NetDevice} {a : Answers} {s t : Stack} {i : Nat}

theorem Stays.refl (i : Nat) (s : Stack) : Stays i s s := fun k hk hst => ⟨k, hk, hst, rfl⟩

/-- One socket is changed. -/
theorem onSock_stays {f : Sock → Sock} {j : Nat} (h : s.onSock j f = some t)
    (hf : i = j → ∀ sk : Sock, sk.state = .listen → (f sk).state = .listen ∧ (f sk).err = sk.err) : Stays i s t := by
  intro m hm hst
  obtain ⟨k, hk, rfl⟩ := Option.map_eq_some_iff.1 h
  by_cases hij : i = j
  · subst hij
    rw [hk] at hm
    cases hm
    exact ⟨_, Function.update_self _ _ _, hf rfl _ hst⟩
  · exact ⟨m, (Function.update_of_ne hij _ _).trans hm, hst, rfl⟩

/-- **A step closes no listener but its owner's.** -/
theorem step_stays (h : s.Cleared) {x : NetLabel} (hi : ¬Closes i x) (hs : stackStep devs dev a s x = some t) :
    Stays i s t := by
  cases x with
  | segment skb env =>
    cases hs
    rw [tcpReceive_cleared h]
    exact Stays.refl i s
  | call c =>
    simp only [stackStep] at hs
    split at hs
    · rename_i hc
      obtain ⟨st, hst, rfl⟩ := Option.map_eq_some_iff.1 hs
      obtain ⟨P, hP, rfl⟩ := Option.map_eq_some_iff.1 hst
      exact call_stays c hc hi hP
    · cases hs
  | recv j len peek =>
    rw [stackStep] at hs
    exact onSock_stays hs fun _ _ hst => ⟨hst, rfl⟩
  | close j =>
    rw [stackStep] at hs
    exact onSock_stays hs fun hij => absurd hij.symm hi
  | closeDone j =>
    rw [stackStep] at hs
    exact onSock_stays hs fun hij => absurd hij.symm hi

theorem listenLaw_cleared (h : s.Cleared) (x : NetLabel) : ListenLaw devs dev a s x := by
  intro t hs
  refine ⟨fun i hi => step_stays h hi hs, fun skb env hx _ i k _ _ hne => absurd ?_ hne⟩
  subst hx
  cases hs
  rw [tcpReceive_cleared h]

/-- Through a run of lawful steps a listener stays one until its owner closes it. -/
theorem listens_of_law : ∀ (l : List NetLabel) (s s' : Stack),
    (netMachine devs dev a).RunOk (ListenLaw devs dev a) s l s' → (∀ x ∈ l, ¬Closes i x) → Stays i s s'
  | [], s, s', h, _ => by
    cases h
    exact Stays.refl i s
  | x :: l, s, s', h, hno => by
    obtain ⟨hlaw, t, ht, hrest⟩ := h
    have hstep := (hlaw t ht).1 i (hno x List.mem_cons_self)
    have hrun := listens_of_law l t s' hrest fun y hy => hno y (List.mem_cons_of_mem x hy)
    intro k hk hst
    obtain ⟨m, hm, hmst, hmerr⟩ := hstep k hk hst
    obtain ⟨n, hn, hnst, hnerr⟩ := hrun m hm hmst
    exact ⟨n, hn, hnst, hnerr.trans hmerr⟩

/-- **The network shuts no listener**, and acts on no reset out of place: in every run every step keeps the law, and a listener
stays one, with no error, until its owner closes it. -/
theorem listenLaw_run (devs : List NetDevice) (dev : NetDevice) (a : Answers) (l : List NetLabel) (s s' : Stack)
    (h : (netMachine devs dev a).init s) (hrun : (netMachine devs dev a).run s l = some s') :
    (netMachine devs dev a).RunOk (ListenLaw devs dev a) s l s' ∧ ∀ i, (∀ x ∈ l, ¬Closes i x) → Stays i s s' := by
  have hlaw : (netMachine devs dev a).RunOk (ListenLaw devs dev a) s l s' :=
    (netMachine devs dev a).runOk_of_run (fun _ x hc => listenLaw_cleared hc x) (fun _ _ _ hc hs => hc.step hs) l s s' h hrun
  exact ⟨hlaw, fun i hno => listens_of_law l s s' hlaw hno⟩

/-- A server is started, and a SYN and a reset arrive for it. -/
theorem listenLaw_run_server : ∃ s', (netMachine [] quietDevice noAnswers).RunOk (ListenLaw [] quietDevice noAnswers) bootStack
    [.call (.socket 0 sockStream 0 none), .call (.bind 0 0 80), .call (.listen 0 5),
      .segment (webSegment 77 0 tcpSyn []) idle, .segment (webSegment 77 0 tcpRst []) idle] s' :=
  ⟨_, (listenLaw_run [] quietDevice noAnswers _ bootStack _ rfl rfl).1⟩

end Law

end NetCore
end Pico
