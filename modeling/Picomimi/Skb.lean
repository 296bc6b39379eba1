import Picomimi.Lib.Bytes
import Picomimi.Lib.Word
/-!
# Skb — the `sk_buff` of `net/net_core.c`, and what packets are made of

The pointers of an `Skb` are offsets from its `head`.  `skb_put` takes room at the end, `skb_push` in front of the data:
there is none on a packet that `skb_alloc` returned and nothing was pulled from (`skbPush_eq_none`).
-/
namespace Pico
namespace NetCore

open Lib

def skbMaxData : Nat := 2048

structure Skb where
  buf : Mem
  data : Nat
  tail : Nat
  limit : Nat                 -- `end`
  len : Nat
  srcIp : Nat
  dstIp : Nat
  srcPort : Nat
  dstPort : Nat
  protocol : Nat

/-- `skb_alloc`; `alloc` is what an allocation of the size returns.  Up to 2 KB the data lie in the zeroed `sk_buff`. -/
def skbAlloc (alloc : Nat → Option Mem) (size : Nat) : Option Skb :=
  (alloc size).map fun mem => ⟨if size ≤ skbMaxData then fun _ => 0 else mem, 0, 0, size, 0, 0, 0, 0, 0, 0⟩

/-- `skb_put`, and where the new room starts. -/
def skbPut (skb : Skb) (n : Nat) : Option (Nat × Skb) :=
  if skb.limit < skb.tail + n then none
  else some (skb.tail, { skb with tail := skb.tail + n, len := add32 skb.len n })

def skbPush (skb : Skb) (n : Nat) : Option Skb :=
  if skb.data < n then none else some { skb with data := skb.data - n, len := add32 skb.len n }

def skbPull (skb : Skb) (n : Nat) : Option Skb :=
  if skb.len < n then none else some { skb with data := skb.data + n, len := sub32 skb.len n }

/-- A call of `skb_pull` whose result is not looked at. -/
def Skb.pulled (skb : Skb) (n : Nat) : Skb := (skbPull skb n).getD skb

def Skb.store (skb : Skb) (i : Nat) (l : List UInt8) : Skb := { skb with buf := skb.buf.copy i l }

/-- The bytes of the packet. -/
def Skb.bytes (skb : Skb) : List UInt8 := skb.buf.bytes skb.data skb.len

def Skb.word16 (skb : Skb) (i : Nat) : Nat := (skb.buf i).toNat + 256 * (skb.buf (i + 1)).toNat

theorem skbPush_eq_none {skb : Skb} {n : Nat} (h : skb.data = 0) (hn : 0 < n) : skbPush skb n = none := if_pos (by omega)

theorem skbAlloc_data {alloc : Nat → Option Mem} {size : Nat} {skb : Skb} (h : skbAlloc alloc size = some skb) :
    skb.data = 0 := by
  obtain ⟨mem, -, rfl⟩ := Option.map_eq_some_iff.1 h
  rfl

theorem skbPut_data {skb skb' : Skb} {n i : Nat} (h : skbPut skb n = some (i, skb')) : skb'.data = skb.data := by
  unfold skbPut at h
  split at h
  · cases h
  · cases h
    rfl

@[simp] theorem Skb.store_data (skb : Skb) (i : Nat) (l : List UInt8) : (skb.store i l).data = skb.data := rfl

/-! ## Words and byte order -/

/-- A `u16` in memory. -/
def le16 (n : Nat) : List UInt8 := [UInt8.ofNat n, UInt8.ofNat (n / 256)]

def le32 (n : Nat) : List UInt8 := le16 n ++ le16 (n / 65536)

def htons (v : Nat) : Nat := v / 256 % 256 + v % 256 * 256

def ntohs (v : Nat) : Nat := htons v

def htonl (v : Nat) : Nat :=
  v / 16777216 % 256 + v / 65536 % 256 * 256 + v / 256 % 256 * 65536 + v % 256 * 16777216

def ntohl (v : Nat) : Nat := htonl v

/-! ## Checksums -/

/-- The words are added as they lie in memory, a last byte alone. -/
def sumWords (sum : Nat) : List UInt8 → Nat
  | a :: b :: l => sumWords (add32 sum (a.toNat + 256 * b.toNat)) l
  | [a] => add32 sum a.toNat
  | [] => sum

def foldCarry (sum : Nat) : Nat := if sum / 65536 = 0 then sum else foldCarry (sum % 65536 + sum / 65536)
termination_by sum
decreasing_by omega

def ipChecksum (data : List UInt8) : Nat := 65535 - foldCarry (sumWords 0 data)

/-- `tcp_udp_checksum`: the pseudo header goes before. -/
def tcpUdpChecksum (srcIp dstIp proto : Nat) (payload : List UInt8) : Nat :=
  let hdr := le32 srcIp ++ le32 dstIp ++ [0, UInt8.ofNat proto] ++ le16 (htons payload.length)
  65535 - foldCarry (sumWords (sumWords 0 hdr) payload)

/-! ## Headers -/

def ethHeaderSize : Nat := 14
def ipHeaderSize : Nat := 20
def udpHeaderSize : Nat := 8

def ethPIp : Nat := 0x0800
def ethPArp : Nat := 0x0806

def ethHeader (dstMac srcMac : List UInt8) (ethertype : Nat) : List UInt8 := dstMac ++ srcMac ++ le16 (htons ethertype)

/-- The addresses are in network order. -/
def ipHeader (totLen id proto checksum srcIp dstIp : Nat) : List UInt8 :=
  [0x45, 0] ++ le16 (htons totLen) ++ le16 (htons id) ++ le16 0 ++ [64, UInt8.ofNat proto] ++ le16 checksum ++
    le32 srcIp ++ le32 dstIp

def udpHeader (srcPort dstPort length checksum : Nat) : List UInt8 :=
  le16 (htons srcPort) ++ le16 (htons dstPort) ++ le16 (htons length) ++ le16 checksum

/-- `ack` is in network order. -/
def tcpHeader (srcPort dstPort seq ack flags window checksum : Nat) : List UInt8 :=
  le16 (htons srcPort) ++ le16 (htons dstPort) ++ le32 (htonl seq) ++ le32 ack ++ [0x50, UInt8.ofNat flags] ++
    le16 (htons window) ++ le16 checksum ++ le16 0

end NetCore
end Pico
