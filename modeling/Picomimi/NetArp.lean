import Mathlib.Tactic.IntervalCases
import Picomimi.NetReceive
/-!
# NetArp — address resolution in `net/net_core.c`

A request goes to everybody, and whoever has the address answers; each side enters the other into its cache.  The network below
keeps every frame that was ever sent and hands any of them to anybody at any time, so that frames are lost, doubled and
overtaken.  Between hosts that run this code every address in a cache is that of the host whose it is.
-/
namespace Pico
namespace NetCore

open Lib Net

def arpPacketSize : Nat := 28
def arpRequest : Nat := 1
def arpReply : Nat := 2

/-- An ARP packet; the addresses are in network order. -/
def arpPacket (operation : Nat) (senderMac : List UInt8) (senderIp : Nat) (targetMac : List UInt8) (targetIp : Nat) : List UInt8 :=
  le16 (htons 1) ++ le16 (htons ethPIp) ++ [6, 4] ++ le16 (htons operation) ++ senderMac ++ le32 senderIp ++ targetMac ++
    le32 targetIp

/-- The frame both senders build, if the allocation succeeds. -/
def arpSkb (dev : NetDevice) (a : Answers) (operation : Nat) (dstMac targetMac : List UInt8) (targetIp : Nat) : Option Skb :=
  match skbAlloc a.alloc (ethHeaderSize + arpPacketSize) with
  | none => none
  | some skb =>
    match skbPut skb ethHeaderSize with
    | none => none
    | some (eth, skb) =>
      match skbPut (skb.store eth (ethHeader dstMac dev.mac ethPArp)) arpPacketSize with
      | none => none
      | some (arp, skb) => some (skb.store arp (arpPacket operation dev.mac dev.ip4 targetMac targetIp))

/-- What `arp_send_request` hands the device. -/
def requestSkb (dev : NetDevice) (a : Answers) (targetIp : Nat) : Option Skb :=
  arpSkb dev a arpRequest (List.replicate 6 0xFF) (List.replicate 6 0) targetIp

/-- `arp_send_request`. -/
def arpSendRequest (dev : Option NetDevice) (a : Answers) (targetIp : Nat) (s : Stack) : Int × Stack :=
  match dev with
  | none => (-enodev, s)
  | some dev =>
    match dev.transmit with
    | none => (-enodev, s)
    | some transmit =>
      match requestSkb dev a targetIp with
      | none => (-enomem, s)
      | some skb => (0, (transmit skb s).2)

/-- The answer of `arp_receive`: to a request for the device's own address. -/
def replySkb (dev : NetDevice) (a : Answers) (skb : Skb) : Option Skb :=
  if skb.len < arpPacketSize then none
  else if ntohs (skb.word16 (skb.data + 6)) = arpRequest ∧ skb.buf.read32 (skb.data + 24) = dev.ip4 then
    let senderMac := skb.buf.bytes (skb.data + 8) 6
    arpSkb dev a arpReply senderMac senderMac (skb.buf.read32 (skb.data + 14))
  else none

/-- `arp_receive`, on a device that can transmit. -/
def arpReceive (dev : NetDevice) (a : Answers) (skb : Skb) (s : Stack) : Stack :=
  if skb.len < arpPacketSize then s
  else
    let s := { s with arpCache := arpCacheInsert s.arpCache (skb.buf.read32 (skb.data + 14)) (skb.buf.bytes (skb.data + 8) 6) }
    match replySkb dev a skb, dev.transmit with
    | some reply, some transmit => (transmit reply s).2
    | _, _ => s

/-! ## A network -/

/-- The hosts: each has a device with an address of its own. -/
structure Hosts (H : Type) where
  dev : H → NetDevice
  mac : ∀ h, (dev h).mac.length = 6
  ip : ∀ h, (dev h).ip4 < word32
  apart : ∀ g h, (dev g).ip4 = (dev h).ip4 → (dev g).ip4 ≠ 0 → g = h
  /-- The device only puts the frame on the wire. -/
  transmit : ∀ h, (dev h).transmit = some fun _ s => (0, s)

/-- The state of every host, and every frame that was sent. -/
structure Network (H : Type) where
  stack : H → Stack
  wire : List (List UInt8)

inductive NetOp (H : Type)
  | request (h : H) (targetIp : Nat) (a : Answers)
  /-- A host receives frame `k` of those that were sent. -/
  | deliver (h : H) (k : Nat) (a : Answers) (env : Env)
  /-- A host receives a frame of another protocol. -/
  | other (h : H) (frame : List UInt8) (a : Answers) (env : Env)

variable {H : Type} [DecidableEq H] (w : Hosts H)

/-- `eth_receive` on a host. -/
def Hosts.receive (h : H) (frame : List UInt8) (a : Answers) (env : Env) (s : Stack) : Stack :=
  ethReceive (handlers [w.dev h] (w.dev h) a env (arpReceive (w.dev h) a)) (frameOf frame) s

/-- What the host puts on the wire when it receives an ARP frame. -/
def Hosts.answer (h : H) (frame : List UInt8) (a : Answers) : List (List UInt8) :=
  ((replySkb (w.dev h) a ((frameOf frame).pulled ethHeaderSize)).map Skb.bytes).toList

/-- The protocol of a frame. -/
def ethertypeOf (frame : List UInt8) : Nat := ntohs ((frameOf frame).word16 12)

def netStep (n : Network H) : NetOp H → Option (Network H)
  | .request h targetIp a =>
    if targetIp < word32 then
      some { n with
        stack := Function.update n.stack h (arpSendRequest (some (w.dev h)) a targetIp (n.stack h)).2
        wire := n.wire ++ ((requestSkb (w.dev h) a targetIp).map Skb.bytes).toList }
    else none
  | .deliver h k a env => (n.wire[k]?).map fun frame =>
    { stack := Function.update n.stack h (w.receive h frame a env (n.stack h)), wire := n.wire ++ w.answer h frame a }
  | .other h frame a env =>
    if ethertypeOf frame = ethPArp then none
    else some { n with stack := Function.update n.stack h (w.receive h frame a env (n.stack h)) }

/-- Behind `net_init`: the caches are empty and nothing was sent. -/
def network : Machine (Network H) (NetOp H) where
  init n := n.wire = [] ∧ ∀ h, (n.stack h).arpCache = bootCache
  step := netStep w

/-! ## Frames -/

/-- The frame of an ARP packet. -/
def arpFrame (dstMac : List UInt8) (operation : Nat) (senderMac : List UInt8) (senderIp : Nat) (targetMac : List UInt8)
    (targetIp : Nat) : List UInt8 :=
  ethHeader dstMac senderMac ethPArp ++ arpPacket operation senderMac senderIp targetMac targetIp

theorem eq_of_length_six {l : List UInt8} (h : l.length = 6) : ∃ a b c d e f, l = [a, b, c, d, e, f] := by
  match l, h with
  | [a, b, c, d, e, f], _ => exact ⟨a, b, c, d, e, f, rfl⟩

theorem read32_le32 (m : Mem) (i n : Nat) (h : ∀ j < 4, m (i + j) = (le32 n).getD j 0) : m.read32 i = n % word32 := by
  have h0 := h 0 (by decide)
  have h1 := h 1 (by decide)
  have h2 := h 2 (by decide)
  have h3 := h 3 (by decide)
  rw [Nat.add_zero] at h0
  unfold Mem.read32
  rw [h0, h1, h2, h3]
  simp only [le32, le16, List.cons_append, List.nil_append, List.getD_cons_zero, List.getD_cons_succ, UInt8.toNat_ofNat', word32]
  omega

/-- An ARP frame as `arp_receive` is handed it. -/
structure Carries (skb : Skb) (operation : Nat) (senderMac : List UInt8) (senderIp targetIp : Nat) : Prop where
  len : skb.len = arpPacketSize
  operation : ntohs (skb.word16 (skb.data + 6)) = operation
  senderMac : skb.buf.bytes (skb.data + 8) 6 = senderMac
  senderIp : skb.buf.read32 (skb.data + 14) = senderIp
  targetIp : skb.buf.read32 (skb.data + 24) = targetIp

variable {dstMac senderMac targetMac : List UInt8} {operation senderIp targetIp : Nat}

theorem frameOf_pulled {l : List UInt8} (h : ethHeaderSize ≤ l.length) (hs : l.length < word32) :
    (frameOf l).pulled ethHeaderSize = { frameOf l with data := ethHeaderSize, len := l.length - ethHeaderSize } := by
  have hsub : sub32 l.length ethHeaderSize = l.length - ethHeaderSize := by
    unfold sub32 word32 at *
    omega
  have hlen : ¬ (frameOf l).len < ethHeaderSize := Nat.not_lt.2 h
  rw [Skb.pulled, skbPull, if_neg hlen, Option.getD_some, ← hsub]
  rfl

/-- Two bytes in network order. -/
theorem ntohs_le16 {n : Nat} (h : n < 65536) :
    ntohs ((UInt8.ofNat (htons n)).toNat + 256 * (UInt8.ofNat (htons n / 256)).toNat) = n := by
  have hlt : htons n < 65536 := by
    unfold htons
    omega
  have hbytes : (UInt8.ofNat (htons n)).toNat + 256 * (UInt8.ofNat (htons n / 256)).toNat = htons n := by
    rw [UInt8.toNat_ofNat', UInt8.toNat_ofNat']
    omega
  have hlow : htons n % 256 = n / 256 := by
    unfold htons
    omega
  have hhigh : htons n / 256 = n % 256 := by
    unfold htons
    omega
  rw [hbytes, ntohs, htons, hlow, hhigh]
  omega

theorem arpFrame_length (operation senderIp targetIp : Nat) (hdst : dstMac.length = 6) (hsender : senderMac.length = 6) (htarget : targetMac.length = 6) :
    (arpFrame dstMac operation senderMac senderIp targetMac targetIp).length = 42 := by
  simp [arpFrame, ethHeader, arpPacket, le16, le32, hdst, hsender, htarget]

theorem arpFrame_carries (hdst : dstMac.length = 6) (hsender : senderMac.length = 6) (htarget : targetMac.length = 6)
    (hop : operation < 65536) (hip : senderIp < word32) (htip : targetIp < word32) :
    ethertypeOf (arpFrame dstMac operation senderMac senderIp targetMac targetIp) = ethPArp ∧
      Carries ((frameOf (arpFrame dstMac operation senderMac senderIp targetMac targetIp)).pulled ethHeaderSize) operation
        senderMac senderIp targetIp := by
  have hlen : (arpFrame dstMac operation senderMac senderIp targetMac targetIp).length = 42 :=
    arpFrame_length _ _ _ hdst hsender htarget
  have hle : ethHeaderSize ≤ (arpFrame dstMac operation senderMac senderIp targetMac targetIp).length := by
    rw [hlen]
    decide
  have hlt : (arpFrame dstMac operation senderMac senderIp targetMac targetIp).length < word32 := by
    rw [hlen]
    decide
  rw [frameOf_pulled hle hlt]
  obtain ⟨d0, d1, d2, d3, d4, d5, rfl⟩ := eq_of_length_six hdst
  obtain ⟨s0, s1, s2, s3, s4, s5, rfl⟩ := eq_of_length_six hsender
  obtain ⟨t0, t1, t2, t3, t4, t5, rfl⟩ := eq_of_length_six htarget
  refine ⟨ntohs_le16 (by decide), rfl, ntohs_le16 hop, rfl, ?_, ?_⟩
  · refine (read32_le32 _ 28 senderIp ?_).trans (Nat.mod_eq_of_lt hip)
    intro j hj
    interval_cases j <;> rfl
  · refine (read32_le32 _ 38 targetIp ?_).trans (Nat.mod_eq_of_lt htip)
    intro j hj
    interval_cases j <;> rfl

variable {dev : NetDevice} {a : Answers} {skb : Skb} {s : Stack}

/-- **The frame is what was to be sent**, and there is one if the allocation succeeds. -/
theorem arpSkb_bytes (hmac : dev.mac.length = 6) (hdst : dstMac.length = 6) (htarget : targetMac.length = 6) :
    (arpSkb dev a operation dstMac targetMac targetIp).map Skb.bytes =
      (a.alloc 42).map fun _ => arpFrame dstMac operation dev.mac dev.ip4 targetMac targetIp := by
  have heth : (ethHeader dstMac dev.mac ethPArp).length = 14 := by simp [ethHeader, le16, hdst, hmac]
  have harp : (arpPacket operation dev.mac dev.ip4 targetMac targetIp).length = 28 := by simp [arpPacket, le16, le32, hmac, htarget]
  cases halloc : a.alloc 42 with
  | none =>
    have hnone : skbAlloc a.alloc (ethHeaderSize + arpPacketSize) = none := congrArg (Option.map _) halloc
    rw [arpSkb, hnone]
    rfl
  | some mem =>
    have hsome : skbAlloc a.alloc (ethHeaderSize + arpPacketSize) = some ⟨fun _ => 0, 0, 0, 42, 0, 0, 0, 0, 0, 0⟩ :=
      congrArg (Option.map _) halloc
    rw [arpSkb, hsome]
    refine congrArg some ?_
    have hbytes : ∀ m : Mem, ((m.copy 0 (ethHeader dstMac dev.mac ethPArp)).copy 14
        (arpPacket operation dev.mac dev.ip4 targetMac targetIp)).bytes 0 42 =
          arpFrame dstMac operation dev.mac dev.ip4 targetMac targetIp := by
      intro m
      rw [show 42 = 14 + 28 from rfl, Mem.bytes_add, arpFrame]
      congr 1
      · have hfront : ((m.copy 0 (ethHeader dstMac dev.mac ethPArp)).copy 14
            (arpPacket operation dev.mac dev.ip4 targetMac targetIp)).bytes 0 14 =
              (m.copy 0 (ethHeader dstMac dev.mac ethPArp)).bytes 0 14 :=
          Mem.bytes_congr fun x _ hx => Mem.copy_of_apart _ (.inl (by omega))
        have h := Mem.bytes_copy m 0 (ethHeader dstMac dev.mac ethPArp)
        rw [heth] at h
        rw [hfront, h]
      · have h := Mem.bytes_copy (m.copy 0 (ethHeader dstMac dev.mac ethPArp)) 14
          (arpPacket operation dev.mac dev.ip4 targetMac targetIp)
        rwa [harp] at h
    exact hbytes _

/-! ## The cache -/

/-- An entry is found where no entry before it is for its address. -/
theorem find?_set_entry {ip : Nat} {mac : List UInt8} : ∀ (l : List ArpEntry) (i : Nat), i < l.length →
    (∀ j < i, ∀ e ∈ l[j]?, (e.valid && e.ip = ip) = false) →
      (l.set i ⟨ip, mac, true⟩).find? (fun e => e.valid && e.ip = ip) = some ⟨ip, mac, true⟩
  | [], i, hi, _ => absurd hi (Nat.not_lt_zero i)
  | _ :: _, 0, _, _ => by simp
  | e :: l, i + 1, hi, hbefore => by
    have he := hbefore 0 (Nat.succ_pos i) e rfl
    rw [List.set_cons_succ, List.find?_cons, he]
    exact find?_set_entry l i (Nat.lt_of_succ_lt_succ hi) fun j hj e' he' => hbefore (j + 1) (Nat.succ_lt_succ hj) e' he'

/-- **What was entered is found.** -/
theorem arpResolve_insert {cache : List ArpEntry} {ip : Nat} (hcache : cache ≠ []) (hip : ip % 256 ≠ 0x7F) (mac : List UInt8) :
    arpResolve a (arpCacheInsert cache ip mac) ip = some mac := by
  rw [arpResolve, if_neg hip, arpCacheInsert]
  cases hidx : cache.findIdx? fun e => e.ip = ip || !e.valid with
  | none =>
    rw [Option.getD_none, find?_set_entry cache 0 (List.length_pos_iff.2 hcache) fun j hj => absurd hj (Nat.not_lt_zero j)]
  | some i =>
    obtain ⟨hi, -, hbefore⟩ := List.findIdx?_eq_some_iff_getElem.1 hidx
    rw [Option.getD_some, find?_set_entry cache i hi]
    intro j hj e he
    have hj' := hbefore j hj
    rw [List.getElem?_eq_getElem (hj.trans hi), Option.mem_some_iff] at he
    rw [he] at hj'
    simp only [Bool.not_eq_true, Bool.or_eq_false_iff, decide_eq_false_iff_not, Bool.not_eq_false'] at hj'
    simp [hj'.1]

theorem arpCacheInsert_length (cache : List ArpEntry) (ip : Nat) (mac : List UInt8) :
    (arpCacheInsert cache ip mac).length = cache.length := List.length_set

/-- Everything in the cache was entered. -/
theorem mem_arpCacheInsert {cache : List ArpEntry} {ip : Nat} {mac : List UInt8} {e : ArpEntry}
    (h : e ∈ arpCacheInsert cache ip mac) : e ∈ cache ∨ e = ⟨ip, mac, true⟩ := List.mem_or_eq_of_mem_set h

/-! ## What a host does with a frame -/

theorem Carries.arpReceive (hc : Carries skb operation senderMac senderIp targetIp) (ht : dev.transmit = some fun _ s => (0, s)) :
    arpReceive dev a skb s = { s with arpCache := arpCacheInsert s.arpCache senderIp senderMac } := by
  rw [NetCore.arpReceive, if_neg (by rw [hc.len]; decide), hc.senderIp, hc.senderMac, ht]
  dsimp only
  split
  · rename_i hsome
    cases hsome
    rfl
  · rfl

theorem Carries.replySkb (hc : Carries skb operation senderMac senderIp targetIp) : replySkb dev a skb =
    if operation = arpRequest ∧ targetIp = dev.ip4 then arpSkb dev a arpReply senderMac senderMac senderIp else none := by
  rw [NetCore.replySkb, if_neg (by rw [hc.len]; decide), hc.operation, hc.targetIp, hc.senderMac, hc.senderIp]

/-- The network is heard through `eth_receive`, which enters the sender for address 0. -/
theorem ethReceive_arp (rx : Handlers) (hlen : ethHeaderSize ≤ skb.len) (htype : ntohs (skb.word16 (skb.data + 12)) = ethPArp) :
    ethReceive rx skb s = rx.arp (skb.pulled ethHeaderSize)
      { s with arpCache := arpCacheInsert s.arpCache 0 (skb.buf.bytes (skb.data + 6) 6) } := by
  rw [ethReceive, if_neg (Nat.not_lt.2 hlen), htype, if_pos rfl]

theorem udpReceive_arpCache (skb : Skb) (s : Stack) : (udpReceive skb s).arpCache = s.arpCache := by
  unfold udpReceive
  split
  · rfl
  · dsimp only
    split
    · rfl
    · rename_i i _
      unfold Stack.deliver
      split
      · rfl
      · rfl

theorem taken_arpCache (s : Stack) (env : Env) (skb : Skb) : (s.taken env skb).arpCache = s.arpCache := by
  unfold Stack.taken
  split
  · rfl
  split
  · rfl
  split
  · rfl
  · rfl

/-- A packet that is not ARP leaves the cache as `eth_receive` found it, but for address 0. -/
theorem ethReceive_other {devs : List NetDevice} {env : Env} {arp : Skb → Stack → Stack}
    (htype : ntohs (skb.word16 (skb.data + 12)) ≠ ethPArp) :
    (ethReceive (handlers devs dev a env arp) skb s).arpCache = s.arpCache ∨
      ∃ mac, (ethReceive (handlers devs dev a env arp) skb s).arpCache = arpCacheInsert s.arpCache 0 mac := by
  unfold ethReceive
  split
  · exact .inl rfl
  · refine .inr ⟨skb.buf.bytes (skb.data + 6) 6, ?_⟩
    dsimp only
    rw [if_neg htype]
    split
    · unfold ipReceive
      split
      · rfl
      dsimp only
      split
      · rfl
      split
      · rfl
      split
      · dsimp only [handlers]
        rw [icmpReceive_eq]
      split
      · rw [udpReceive_arpCache]
      split
      · dsimp only [handlers]
        rw [tcpReceive_eq, taken_arpCache]
      · rfl
    · rfl

variable {w} {h g : H} {env : Env} {n n' : Network H}

/-- An ARP frame of host `g`. -/
def Hosts.frame (w : Hosts H) (g : H) (dstMac : List UInt8) (operation : Nat) (targetMac : List UInt8) (targetIp : Nat) : List UInt8 :=
  arpFrame dstMac operation (w.dev g).mac (w.dev g).ip4 targetMac targetIp

/-- The fields of a frame are as wide as they are written. -/
structure Written (dstMac : List UInt8) (operation : Nat) (targetMac : List UInt8) (targetIp : Nat) : Prop where
  dstMac : dstMac.length = 6
  operation : operation < 65536
  targetMac : targetMac.length = 6
  targetIp : targetIp < word32

omit [DecidableEq H] in
/-- **What a host does with a frame of host `g`**: it enters `g`, and answers a request for its own address. -/
theorem Hosts.receive_frame (hw : Written dstMac operation targetMac targetIp) (h g : H) (s : Stack) (a : Answers) (env : Env) :
    (w.receive h (w.frame g dstMac operation targetMac targetIp) a env s).arpCache =
        arpCacheInsert (arpCacheInsert s.arpCache 0 (w.dev g).mac) (w.dev g).ip4 (w.dev g).mac ∧
      w.answer h (w.frame g dstMac operation targetMac targetIp) a =
        if operation = arpRequest ∧ targetIp = (w.dev h).ip4 then
          ((a.alloc 42).map fun _ => w.frame h (w.dev g).mac arpReply (w.dev g).mac (w.dev g).ip4).toList
        else [] := by
  have hmac := w.mac g
  obtain ⟨htype, hc⟩ := arpFrame_carries hw.dstMac hmac hw.targetMac hw.operation (w.ip g) hw.targetIp
  have hlen : ethHeaderSize ≤ (frameOf (w.frame g dstMac operation targetMac targetIp)).len := by
    have h42 := arpFrame_length operation (w.dev g).ip4 targetIp hw.dstMac hmac hw.targetMac
    exact (by decide : ethHeaderSize ≤ 42).trans (Nat.le_of_eq h42.symm)
  have hsrc : (frameOf (w.frame g dstMac operation targetMac targetIp)).buf.bytes (0 + 6) 6 = (w.dev g).mac := by
    obtain ⟨d0, d1, d2, d3, d4, d5, rfl⟩ := eq_of_length_six hw.dstMac
    obtain ⟨s0, s1, s2, s3, s4, s5, hs⟩ := eq_of_length_six hmac
    rw [Hosts.frame, hs]
    rfl
  constructor
  · have hreceive : ∀ s, (handlers [w.dev h] (w.dev h) a env (NetCore.arpReceive (w.dev h) a)).arp
        ((frameOf (w.frame g dstMac operation targetMac targetIp)).pulled ethHeaderSize) s =
          { s with arpCache := arpCacheInsert s.arpCache (w.dev g).ip4 (w.dev g).mac } :=
      fun s => hc.arpReceive (w.transmit h)
    have hsrc' : (frameOf (w.frame g dstMac operation targetMac targetIp)).buf.bytes
        ((frameOf (w.frame g dstMac operation targetMac targetIp)).data + 6) 6 = (w.dev g).mac := hsrc
    rw [Hosts.receive, ethReceive_arp _ hlen htype, hreceive, hsrc']
  · have hreply : NetCore.replySkb (w.dev h) a _ = _ := hc.replySkb
    rw [Hosts.answer, Hosts.frame, hreply]
    split
    · rw [arpSkb_bytes (w.mac h) hmac hmac]
      rfl
    · rfl

/-! ## Runs -/

/-- **The invariant**: every frame is of a host, and every entry but those for address 0 is the one of a host. -/
structure NetInv (w : Hosts H) (n : Network H) : Prop where
  wire : ∀ frame ∈ n.wire, ∃ g dstMac operation targetMac targetIp, Written dstMac operation targetMac targetIp ∧
    frame = w.frame g dstMac operation targetMac targetIp
  cache : ∀ h, ∀ e ∈ (n.stack h).arpCache, e.valid → e.ip ≠ 0 → ∃ g, (w.dev g).ip4 = e.ip ∧ (w.dev g).mac = e.mac
  size : ∀ h, (n.stack h).arpCache.length = 16

theorem NetInv.of_init (h : (network w).init n) : NetInv w n := by
  obtain ⟨hwire, hcache⟩ := h
  refine ⟨?_, fun h e he hv => ?_, fun h => ?_⟩
  · rw [hwire]
    exact fun frame hf => absurd hf List.not_mem_nil
  · rw [hcache, bootCache] at he
    rw [List.eq_of_mem_replicate he] at hv
    cases hv
  · rw [hcache]
    rfl

omit [DecidableEq H] in
/-- What the entry of a host, or of anything for address 0, keeps of a cache. -/
theorem true_insert {cache : List ArpEntry} {ip : Nat} {mac : List UInt8}
    (hc : ∀ e ∈ cache, e.valid → e.ip ≠ 0 → ∃ g, (w.dev g).ip4 = e.ip ∧ (w.dev g).mac = e.mac)
    (hnew : ip ≠ 0 → ∃ g, (w.dev g).ip4 = ip ∧ (w.dev g).mac = mac) :
    ∀ e ∈ arpCacheInsert cache ip mac, e.valid → e.ip ≠ 0 → ∃ g, (w.dev g).ip4 = e.ip ∧ (w.dev g).mac = e.mac := by
  intro e he hv hne
  rcases mem_arpCacheInsert he with he | rfl
  · exact hc e he hv hne
  · exact hnew hne

/-- A step that changes the cache of one host. -/
theorem NetInv.update (hi : NetInv w n) {s : Stack} {wire : List (List UInt8)}
    (hwire : ∀ frame ∈ wire, ∃ g dstMac operation targetMac targetIp, Written dstMac operation targetMac targetIp ∧
      frame = w.frame g dstMac operation targetMac targetIp)
    (hcache : ∀ e ∈ s.arpCache, e.valid → e.ip ≠ 0 → ∃ g, (w.dev g).ip4 = e.ip ∧ (w.dev g).mac = e.mac)
    (hsize : s.arpCache.length = 16) : NetInv w ⟨Function.update n.stack h s, n.wire ++ wire⟩ := by
  refine ⟨fun frame hf => ?_, fun d => ?_, fun d => ?_⟩
  · rcases List.mem_append.1 hf with hf | hf
    · exact hi.wire frame hf
    · exact hwire frame hf
  · dsimp only
    by_cases hd : d = h
    · rw [hd, Function.update_self]
      exact hcache
    · rw [Function.update_of_ne hd]
      exact hi.cache d
  · dsimp only
    by_cases hd : d = h
    · rw [hd, Function.update_self]
      exact hsize
    · rw [Function.update_of_ne hd]
      exact hi.size d

omit [DecidableEq H] in
theorem arpSendRequest_arpCache (h : H) (targetIp : Nat) (a : Answers) (s : Stack) :
    (arpSendRequest (some (w.dev h)) a targetIp s).2 = s := by
  unfold arpSendRequest
  dsimp only
  rw [w.transmit h]
  dsimp only
  split
  · rfl
  · rfl

omit [DecidableEq H] in
theorem requestSkb_bytes (h : H) (targetIp : Nat) (a : Answers) : (requestSkb (w.dev h) a targetIp).map Skb.bytes =
    (a.alloc 42).map fun _ => w.frame h (List.replicate 6 0xFF) arpRequest (List.replicate 6 0) targetIp :=
  arpSkb_bytes (w.mac h) List.length_replicate List.length_replicate

/-- **Every step keeps the invariant.** -/
theorem NetInv.step (hi : NetInv w n) {op : NetOp H} (hstep : netStep w n op = some n') : NetInv w n' := by
  cases op with
  | request h targetIp a =>
    simp only [netStep] at hstep
    split at hstep
    · rename_i hip
      cases hstep
      rw [arpSendRequest_arpCache, requestSkb_bytes]
      refine hi.update (fun frame hf => ?_) (hi.cache h) (hi.size h)
      obtain ⟨-, -, rfl⟩ := Option.map_eq_some_iff.1 (Option.mem_toList.1 hf)
      exact ⟨h, _, _, _, _, ⟨List.length_replicate, by decide, List.length_replicate, hip⟩, rfl⟩
    · cases hstep
  | deliver h k a env =>
    obtain ⟨frame, hf, rfl⟩ := Option.map_eq_some_iff.1 hstep
    obtain ⟨g, dstMac, operation, targetMac, targetIp, hw, rfl⟩ := hi.wire frame (List.mem_of_getElem? hf)
    obtain ⟨hcache, hanswer⟩ := Hosts.receive_frame (w := w) hw h g (n.stack h) a env
    rw [hanswer]
    refine hi.update (fun frame hf => ?_) ?_ ?_
    · split at hf
      · obtain ⟨-, -, rfl⟩ := Option.map_eq_some_iff.1 (Option.mem_toList.1 hf)
        exact ⟨h, _, _, _, _, ⟨w.mac g, by decide, w.mac g, w.ip g⟩, rfl⟩
      · cases hf
    · rw [hcache]
      exact true_insert (true_insert (hi.cache h) fun h0 => absurd rfl h0) fun _ => ⟨g, rfl, rfl⟩
    · rw [hcache, arpCacheInsert_length, arpCacheInsert_length]
      exact hi.size h
  | other h frame a env =>
    simp only [netStep] at hstep
    split at hstep
    · cases hstep
    · rename_i htype
      cases hstep
      have hupdate : ∀ s : Stack, s.arpCache = (n.stack h).arpCache ∨ (∃ mac, s.arpCache = arpCacheInsert (n.stack h).arpCache 0 mac) →
          NetInv w ⟨Function.update n.stack h s, n.wire ++ []⟩ := by
        rintro s (hs | ⟨mac, hs⟩)
        · refine hi.update (fun frame hf => absurd hf List.not_mem_nil) ?_ ?_
          · rw [hs]
            exact hi.cache h
          · rw [hs]
            exact hi.size h
        · refine hi.update (fun frame hf => absurd hf List.not_mem_nil) ?_ ?_
          · rw [hs]
            exact true_insert (hi.cache h) fun h0 => absurd rfl h0
          · rw [hs, arpCacheInsert_length]
            exact hi.size h
      have hother := hupdate (w.receive h frame a env (n.stack h)) (ethReceive_other htype)
      rw [List.append_nil] at hother
      exact hother

theorem network_inv {n₀ : Network H} {ops : List (NetOp H)} (h0 : (network w).init n₀) (h : (network w).run n₀ ops = some n) :
    NetInv w n :=
  (network w).run_invariant (P := NetInv w) (fun _ _ _ hi hs => hi.step hs) ops n₀ n (.of_init h0) h

/-- An `arp_resolve` that nobody answers in time. -/
def unanswered : Answers := ⟨fun _ => none, fun _ => none⟩

/-- **No host is misled**: whatever is sent, lost, doubled and overtaken, the address that `arp_resolve` finds in a cache is
that of the host whose it is. -/
theorem arpResolve_true {n₀ n : Network H} {ops : List (NetOp H)} (h0 : (network w).init n₀) (h : (network w).run n₀ ops = some n)
    {c : H} {ip : Nat} {mac : List UInt8} (hip : ip ≠ 0) (hlo : ip % 256 ≠ 0x7F)
    (hr : arpResolve unanswered (n.stack c).arpCache ip = some mac) : ∃ g, (w.dev g).ip4 = ip ∧ (w.dev g).mac = mac := by
  have hinv := network_inv h0 h
  rw [arpResolve, if_neg hlo] at hr
  cases hf : (n.stack c).arpCache.find? fun e => e.valid && e.ip = ip with
  | none =>
    rw [hf] at hr
    cases hr
  | some e =>
    rw [hf] at hr
    cases hr
    have hmatch := List.find?_some hf
    simp only [Bool.and_eq_true, decide_eq_true_eq] at hmatch
    obtain ⟨g, hg, hmac⟩ := hinv.cache c e (List.mem_of_find?_eq_some hf) hmatch.1 (hmatch.2.symm ▸ hip)
    exact ⟨g, hg.trans hmatch.2, hmac⟩

/-- Two hosts, 10.0.0.1 and 10.0.0.2. -/
def twoHosts : Hosts Bool where
  dev h := ⟨"eth0", List.replicate 6 (if h then 2 else 1), htonl (if h then 0x0A000002 else 0x0A000001), 0, 0, true,
    some fun _ s => (0, s)⟩
  mac h := List.length_replicate
  ip h := by revert h; decide
  apart g h := by revert g h; decide
  transmit _ := rfl

def quietNet : Network Bool := ⟨fun _ => ⟨⟨Ports.boot, fun _ => none⟩, bootCache, 0⟩, []⟩

/-- Allocations succeed. -/
def ample : Answers := ⟨fun _ => some fun _ => 0, fun _ => none⟩

/-- The first host asks for the second, whose answer is lost; it asks again, and both answers arrive, the second one first. -/
def asks : List (NetOp Bool) :=
  [.request false (htonl 0x0A000002) ample, .deliver true 0 ample ⟨0, true, none, true⟩,
    .request false (htonl 0x0A000002) ample, .deliver true 2 ample ⟨0, true, none, true⟩,
    .deliver false 3 ample ⟨0, true, none, true⟩, .deliver false 1 ample ⟨0, true, none, true⟩]

theorem arpResolve_true_asks : ∃ n, (network twoHosts).run quietNet asks = some n ∧
    ∃ g, (twoHosts.dev g).ip4 = htonl 0x0A000002 ∧ (twoHosts.dev g).mac = List.replicate 6 2 := by
  have hrun : ((network twoHosts).run quietNet asks).map
      (fun n => arpResolve unanswered (n.stack false).arpCache (htonl 0x0A000002)) = some (some (List.replicate 6 2)) := by
    decide +kernel
  obtain ⟨n, hn, hr⟩ := Option.map_eq_some_iff.1 hrun
  exact ⟨n, hn, arpResolve_true ⟨rfl, fun _ => rfl⟩ hn (by decide) (by decide) hr⟩

/-- Nothing that was sent is forgotten. -/
theorem wire_step {op : NetOp H} (hstep : netStep w n op = some n') {k : Nat} {frame : List UInt8} (hk : n.wire[k]? = some frame) :
    n'.wire[k]? = some frame := by
  have happ : ∀ l, (n.wire ++ l)[k]? = some frame := fun l => by
    rw [List.getElem?_append_left (List.getElem?_eq_some_iff.1 hk).1, hk]
  cases op with
  | request h targetIp a =>
    simp only [netStep] at hstep
    split at hstep
    · cases hstep
      exact happ _
    · cases hstep
  | deliver h k a env =>
    obtain ⟨frame, -, rfl⟩ := Option.map_eq_some_iff.1 hstep
    exact happ _
  | other h frame a env =>
    simp only [netStep] at hstep
    split at hstep
    · cases hstep
    · cases hstep
      exact hk

theorem wire_run {ops : List (NetOp H)} (h : (network w).run n ops = some n') {k : Nat} {frame : List UInt8}
    (hk : n.wire[k]? = some frame) : n'.wire[k]? = some frame :=
  (network w).run_invariant (P := fun n => n.wire[k]? = some frame) (fun _ _ _ hk hs => wire_step hs hk) ops n n' hk h

/-- The delivery of a frame of host `g`. -/
theorem deliver_frame (hw : Written dstMac operation targetMac targetIp) {k : Nat}
    (hk : n.wire[k]? = some (w.frame g dstMac operation targetMac targetIp))
    (hstep : netStep w n (.deliver h k a env) = some n') :
    (n'.stack h).arpCache = arpCacheInsert (arpCacheInsert (n.stack h).arpCache 0 (w.dev g).mac) (w.dev g).ip4 (w.dev g).mac ∧
      n'.wire = n.wire ++ if operation = arpRequest ∧ targetIp = (w.dev h).ip4 then
          ((a.alloc 42).map fun _ => w.frame h (w.dev g).mac arpReply (w.dev g).mac (w.dev g).ip4).toList
        else [] := by
  obtain ⟨hcache, hanswer⟩ := Hosts.receive_frame (w := w) hw h g (n.stack h) a env
  simp only [netStep, hk, Option.map_some, Option.some.injEq] at hstep
  rw [← hstep]
  constructor
  · dsimp only
    rw [Function.update_self, hcache]
  · dsimp only
    rw [hanswer]

theorem request_wire {c : H} {ip : Nat} (halloc : a.alloc 42 ≠ none) (hstep : netStep w n (.request c ip a) = some n') :
    n'.wire[n.wire.length]? = some (w.frame c (List.replicate 6 0xFF) arpRequest (List.replicate 6 0) ip) := by
  obtain ⟨mem, hmem⟩ := Option.ne_none_iff_exists'.1 halloc
  simp only [netStep] at hstep
  split at hstep
  · cases hstep
    dsimp only
    rw [requestSkb_bytes, hmem]
    exact List.getElem?_concat_length
  · cases hstep

/-- **An address is resolved by one request and its answer**, whatever is sent and received in between and whichever copies of
the two are the first to arrive: the one who is asked knows the asker as soon as the request arrives, and the asker the one it
asked as soon as the answer does. -/
theorem arp_exchange {n₀ n₁ n₂ n₃ n₄ n₅ n₆ : Network H} {ops₁ ops₂ ops₄ : List (NetOp H)} {c g : H} {a₁ a₂ a₃ : Answers}
    {env₂ env₃ : Env} (h0 : (network w).init n₀) (h₁ : (network w).run n₀ ops₁ = some n₁)
    (hc : (w.dev c).ip4 % 256 ≠ 0x7F) (hg : (w.dev g).ip4 % 256 ≠ 0x7F)
    (ha₁ : a₁.alloc 42 ≠ none) (hrequest : netStep w n₁ (.request c (w.dev g).ip4 a₁) = some n₂)
    (h₂ : (network w).run n₂ ops₂ = some n₃)
    (ha₂ : a₂.alloc 42 ≠ none) (harrives : netStep w n₃ (.deliver g n₁.wire.length a₂ env₂) = some n₄)
    (h₄ : (network w).run n₄ ops₄ = some n₅)
    (hanswered : netStep w n₅ (.deliver c n₃.wire.length a₃ env₃) = some n₆) :
    arpResolve unanswered (n₄.stack g).arpCache (w.dev c).ip4 = some (w.dev c).mac ∧
      arpResolve unanswered (n₆.stack c).arpCache (w.dev g).ip4 = some (w.dev g).mac := by
  have hinv₁ := network_inv h0 h₁
  have hinv₃ : NetInv w n₃ :=
    (network w).run_invariant (P := NetInv w) (fun _ _ _ hi hs => hi.step hs) ops₂ n₂ n₃ (hinv₁.step hrequest) h₂
  have hinv₅ : NetInv w n₅ :=
    (network w).run_invariant (P := NetInv w) (fun _ _ _ hi hs => hi.step hs) ops₄ n₄ n₅ (hinv₃.step harrives) h₄
  have hne : ∀ {n : Network H} {h : H} {mac : List UInt8}, NetInv w n → arpCacheInsert (n.stack h).arpCache 0 mac ≠ [] := by
    intro n h mac hi hnil
    have hlen := congrArg List.length hnil
    rw [arpCacheInsert_length, hi.size h] at hlen
    cases hlen
  have hreq : Written (List.replicate 6 0xFF) arpRequest (List.replicate 6 0) (w.dev g).ip4 :=
    ⟨List.length_replicate, by decide, List.length_replicate, w.ip g⟩
  obtain ⟨hcache₄, hwire₄⟩ := deliver_frame hreq (wire_run h₂ (request_wire ha₁ hrequest)) harrives
  obtain ⟨mem, hmem⟩ := Option.ne_none_iff_exists'.1 ha₂
  have hreply : n₄.wire[n₃.wire.length]? = some (w.frame g (w.dev c).mac arpReply (w.dev c).mac (w.dev c).ip4) := by
    rw [hwire₄, if_pos ⟨rfl, rfl⟩, hmem]
    exact List.getElem?_concat_length
  have hrep : Written (w.dev c).mac arpReply (w.dev c).mac (w.dev c).ip4 := ⟨w.mac c, by decide, w.mac c, w.ip c⟩
  obtain ⟨hcache₆, -⟩ := deliver_frame hrep (wire_run h₄ hreply) hanswered
  rw [hcache₄, hcache₆]
  exact ⟨arpResolve_insert (hne hinv₃) hc _, arpResolve_insert (hne hinv₅) hg _⟩

theorem arp_exchange_twoHosts : ∃ n₄ n₆ : Network Bool,
    arpResolve unanswered (n₄.stack true).arpCache (htonl 0x0A000001) = some (List.replicate 6 1) ∧
      arpResolve unanswered (n₆.stack false).arpCache (htonl 0x0A000002) = some (List.replicate 6 2) := by
  have hrun : ((network twoHosts).run quietNet [.request false (htonl 0x0A000002) ample]).map (fun n => n.wire.length) = some 1 := by
    decide +kernel
  obtain ⟨n₂, hn₂, hlen⟩ := Option.map_eq_some_iff.1 hrun
  have hrest : ((network twoHosts).run quietNet [.request false (htonl 0x0A000002) ample, .deliver true 0 ample ⟨0, true, none, true⟩,
      .deliver false 1 ample ⟨0, true, none, true⟩]).isSome = true := by decide +kernel
  obtain ⟨n₆, hn₆⟩ := Option.isSome_iff_exists.1 hrest
  obtain ⟨n₂', hrequest, htail⟩ := (network twoHosts).run_cons.1 hn₆
  obtain ⟨n₂'', hrequest', hnil⟩ := (network twoHosts).run_cons.1 hn₂
  cases hnil
  rw [hrequest'] at hrequest
  cases hrequest
  obtain ⟨n₄, harrives, htail⟩ := (network twoHosts).run_cons.1 htail
  obtain ⟨n₆', hanswered, hnil⟩ := (network twoHosts).run_cons.1 htail
  cases hnil
  rw [← hlen] at hanswered
  have hempty : ∀ n : Network Bool, (network twoHosts).run n [] = some n := fun _ => rfl
  have halloc : ample.alloc 42 ≠ none := Option.some_ne_none _
  have hreq : netStep twoHosts quietNet (.request false (twoHosts.dev true).ip4 ample) = some n₂ := hrequest'
  have harr : netStep twoHosts n₂ (.deliver true quietNet.wire.length ample ⟨0, true, none, true⟩) = some n₄ := harrives
  exact ⟨n₄, n₆, arp_exchange ⟨rfl, fun _ => rfl⟩ (hempty quietNet) (by decide) (by decide) halloc hreq (hempty n₂) halloc harr
    (hempty n₄) hanswered⟩

end NetCore
end Pico
