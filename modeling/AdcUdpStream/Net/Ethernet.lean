import AdcUdpStream.Lib.LittleEndian
import AdcUdpStream.Net.Checksum

/-!
# Frames (`ethernet.c`, `netif.h`, `ip4_addr.c`)

What UDP and ARP share: the interface, the addresses, the chains of pbufs to send, and
`ethernet_output`, which puts the Ethernet header in front of them.
-/

namespace AdcUdpStream.Net

open LittleEndian

/-! ## The header -/

abbrev EthAddr := Vector UInt8 6

/-- `struct eth_hdr`. -/
structure EthHdr where
  dest : EthAddr
  src : EthAddr
  type : UInt16
  deriving DecidableEq

def EthHdr.bytes (h : EthHdr) : List UInt8 := h.dest.toList ++ h.src.toList ++ put16 h.type

def sizeofEthHdr : Nat := 14

@[simp] theorem EthHdr.bytes_length (h : EthHdr) : h.bytes.length = sizeofEthHdr := by
  simp only [EthHdr.bytes, List.length_append, Vector.length_toList]
  rfl

def ethtypeIpWord : UInt16 := 0x0800
def ethtypeArpWord : UInt16 := 0x0806

def ethbroadcast : EthAddr := #v[0xFF, 0xFF, 0xFF, 0xFF, 0xFF, 0xFF]

theorem ethType_bytes (h : EthHdr) (m : List UInt8) : get16 (h.bytes ++ m) 12 = h.type := by
  have hlen : (h.dest.toList ++ h.src.toList).length = 12 := by
    rw [List.length_append, Vector.length_toList, Vector.length_toList]
  have h0 := get16_append (h.dest.toList ++ h.src.toList) (put16 h.type ++ m) 0
  rw [hlen, get16_put16] at h0
  rwa [EthHdr.bytes, List.append_assoc]

/-! ## The interface -/

/-- The fields of `struct netif` that decide; `NETIF_FLAG_ETHARP` is always set. -/
structure Netif where
  ipAddr : UInt32
  netmask : UInt32
  gw : UInt32
  mtu : Nat
  up : Bool
  linkUp : Bool
  broadcast : Bool
  hwaddr : EthAddr

def ip4AddrNetEq (addr1 addr2 mask : UInt32) : Bool := addr1 &&& mask = addr2 &&& mask

def ip4AddrIsbroadcast (addr : UInt32) (n : Netif) : Bool :=
  if ~~~addr = 0 ∨ addr = 0 then true
  else if n.broadcast = false then false
  else if addr = n.ipAddr then false
  else ip4AddrNetEq addr n.ipAddr n.netmask ∧
    addr &&& ~~~n.netmask = 0xFFFFFFFF &&& ~~~n.netmask

/-- The first octet is the low byte. -/
def ip4AddrIsmulticast (addr : UInt32) : Bool := addr &&& 0xF0 = 0xE0

def ip4AddrIslinklocal (addr : UInt32) : Bool := addr &&& 0xFFFF = 0xFEA9

def ip4AddrIsloopback (addr : UInt32) : Bool := addr &&& 0xFF = 0x7F

/-! ## Buffers -/

/-- A chain to send: the bytes free in front of its first pbuf, and the payloads. -/
structure Packet where
  room : Nat
  pbufs : List (List UInt8)
  deriving DecidableEq

def Packet.bytes (p : Packet) : List UInt8 := p.pbufs.flatten

def Packet.totLen (p : Packet) : Nat := p.bytes.length

/-- When `pbuf_add_header` succeeds. -/
def Packet.Fits (p : Packet) (n : Nat) : Prop := n + p.totLen < 0x10000 ∧ n ≤ p.room

instance (p : Packet) (n : Nat) : Decidable (p.Fits n) := inferInstanceAs (Decidable (_ ∧ _))

/-- `pbuf_add_header`, and then the header is written. -/
def Packet.front (p : Packet) (h : List UInt8) : Packet where
  room := p.room - h.length
  pbufs := match p.pbufs with
    | q :: qs => (h ++ q) :: qs
    | [] => [h]

/-! ## Output -/

inductive NetErr where
  | mem
  | buf
  | rte
  | val
  | use
  deriving DecidableEq

/-- What is handed to `netif->linkoutput`, or `ERR_BUF`. -/
def ethernetOutput (q : Packet) (src dst : EthAddr) (ethType : UInt16) : Option Packet :=
  if q.Fits sizeofEthHdr then
    some (q.front (EthHdr.bytes { dest := dst, src := src, type := lwipHtons ethType }))
  else none

theorem front_bytes (p : Packet) (h : List UInt8) : (p.front h).bytes = h ++ p.bytes := by
  obtain ⟨room, pbufs⟩ := p
  cases pbufs with
  | nil => rfl
  | cons q qs => exact List.append_assoc ..

theorem ethernetOutput_frame {q f : Packet} {src dst : EthAddr} {ethType : UInt16}
    (h : ethernetOutput q src dst ethType = some f) :
    f.bytes = EthHdr.bytes ⟨dst, src, lwipHtons ethType⟩ ++ q.bytes ∧
      q.bytes.length < 0x10000 := by
  unfold ethernetOutput at h
  split at h
  · next hfits =>
    obtain rfl := Option.some.inj h
    exact ⟨front_bytes .., Nat.lt_of_le_of_lt (Nat.le_add_left ..) hfits.1⟩
  · cases h

end AdcUdpStream.Net
