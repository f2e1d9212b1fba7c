import AdcUdpStream.Net.Ethernet
import Mathlib.Tactic.LinearCombination

/-!
# Sending a datagram (`udp.c`, `ip4.c`)

From `udp_sendto` down to `netif->output`, for the one interface the programs have.
What comes out is the payload behind two headers whose checksums cover it
(`udpSendto_packet`).
-/

namespace AdcUdpStream.Net

open LittleEndian

/-! ## Headers -/

/-- `struct ip_hdr`, its words in network byte order. -/
structure IpHdr where
  vHl : UInt8
  tos : UInt8
  len : UInt16
  id : UInt16
  offset : UInt16
  ttl : UInt8
  proto : UInt8
  chksum : UInt16
  src : UInt32
  dest : UInt32
  deriving DecidableEq

/-- `struct udp_hdr`, in network byte order. -/
structure UdpHdr where
  src : UInt16
  dest : UInt16
  len : UInt16
  chksum : UInt16
  deriving DecidableEq

def IpHdr.bytes (h : IpHdr) : List UInt8 :=
  [h.vHl, h.tos] ++ put16 h.len ++ put16 h.id ++ put16 h.offset ++ [h.ttl, h.proto] ++
    put16 h.chksum ++ put32 h.src ++ put32 h.dest

def UdpHdr.bytes (h : UdpHdr) : List UInt8 :=
  put16 h.src ++ put16 h.dest ++ put16 h.len ++ put16 h.chksum

def ipHlen : Nat := 20
def udpHlen : Nat := 8
def ipProtoUdp : UInt8 := 17

@[simp] theorem IpHdr.bytes_length (h : IpHdr) : h.bytes.length = ipHlen := rfl

@[simp] theorem UdpHdr.bytes_length (h : UdpHdr) : h.bytes.length = udpHlen := rfl

/-! ## Control blocks and chains -/

/-- `struct udp_pcb`, not bound to an interface; `recv` when there is a callback. -/
structure UdpPcb where
  localIp : UInt32 := 0
  localPort : UInt16 := 0
  remoteIp : UInt32 := 0
  remotePort : UInt16 := 0
  connected : Bool := false
  noChksum : Bool := false
  sofBroadcast : Bool := false
  ttl : UInt8 := 255
  tos : UInt8 := 0
  recv : Bool := false
  deriving DecidableEq

/-- `p` with a UDP header: in front of its first pbuf, or in a pbuf of its own, for which
`pbuf_alloc` has `memory`. -/
def udpChain (p : Packet) (memory : Bool) : Option (List UInt8 → Packet) :=
  if p.Fits udpHlen then some p.front
  else if memory then
    some fun h => { room := 36, pbufs := if p.totLen ≠ 0 then h :: p.pbufs else [h] }
  else none

/-! ## Output -/

/-- Where a packet goes: to `ip4_frag`, or to `netif->output` with its destination. -/
inductive Output where
  | err (e : NetErr)
  | fragmented (q : Packet)
  | output (q : Packet) (ipaddr : UInt32)
  deriving DecidableEq

/-- `chk_sum` of `ip4_output_if_src`, behind the last field. -/
def ipChkSum (h : IpHdr) : UInt32 :=
  let chkSum := (lwipHtons (h.proto.toUInt16 ||| h.ttl.toUInt16 <<< 8)).toUInt32
  let chkSum := chkSum + (h.dest &&& (0xFFFF : UInt32))
  let chkSum := chkSum + h.dest >>> 16
  let chkSum := chkSum + (lwipHtons (h.tos.toUInt16 ||| h.vHl.toUInt16 <<< 8)).toUInt32
  let chkSum := chkSum + h.len.toUInt32
  let chkSum := chkSum + h.id.toUInt32
  let chkSum := chkSum + (h.src &&& (0xFFFF : UInt32))
  chkSum + h.src >>> 16

def inlineChksum (h : IpHdr) : UInt16 :=
  let chkSum := ipChkSum h
  let chkSum := (chkSum >>> 16) + (chkSum &&& 0xFFFF)
  let chkSum := (chkSum >>> 16) + chkSum
  (~~~chkSum).toUInt16

/-- The header that `ip4_output_if_src` writes, but for its checksum. -/
def ip4Header (ipId : UInt16) (p : Packet) (src dest : UInt32) (ttl tos proto : UInt8) : IpHdr where
  vHl := 0x45
  tos := tos
  len := lwipHtons (UInt16.ofNat (p.totLen + ipHlen))
  id := lwipHtons ipId
  offset := 0
  ttl := ttl
  proto := proto
  chksum := 0
  src := src
  dest := dest

/-- `ip4_output_if_src`, with the `ip_id` it leaves. -/
def ip4OutputIfSrc (n : Netif) (ipId : UInt16) (p : Packet) (src dest : UInt32)
    (ttl tos proto : UInt8) : UInt16 × Output :=
  if p.Fits ipHlen then
    let h := ip4Header ipId p src dest ttl tos proto
    let q := p.front (IpHdr.bytes { h with chksum := inlineChksum h })
    (ipId + 1, if n.mtu ≠ 0 ∧ n.mtu < q.totLen then .fragmented q else .output q dest)
  else (ipId, .err .buf)

/-- The one interface, which is also the default. -/
def ip4Route (n : Netif) (dest : UInt32) : Bool :=
  (n.up && n.linkUp && n.ipAddr ≠ 0) &&
    (ip4AddrNetEq dest n.ipAddr n.netmask || (!n.broadcast && dest = n.gw) ||
      !ip4AddrIsloopback dest)

/-- The header that `udp_sendto_if_src` writes, but for its checksum. -/
def udpHeader (localPort dstPort : UInt16) (p : Packet) : UdpHdr where
  src := lwipHtons localPort
  dest := lwipHtons dstPort
  len := lwipHtons (UInt16.ofNat (p.totLen + udpHlen))
  chksum := 0

/-- `udpchksum`, and what stands for 0. -/
def udpChksum (q : List UInt8 → Packet) (h : UdpHdr) (src dst : UInt32) : UInt16 :=
  let udpchksum :=
    inetChksumPseudo (q h.bytes).pbufs ipProtoUdp (UInt16.ofNat (q h.bytes).totLen) src dst
  if udpchksum = 0 then 0xFFFF else udpchksum

/-- With the checksum, unless `UDP_FLAGS_NOCHKSUM` is set. -/
def udpSealed (noChksum : Bool) (q : List UInt8 → Packet) (h : UdpHdr) (src dst : UInt32) :
    UdpHdr :=
  if noChksum then h else { h with chksum := udpChksum q h src dst }

/-- The environment of a call: `newPort` is what `udp_new_port` finds, `memory` what `pbuf_alloc`
has for a header. -/
structure SendEnv where
  ipId : UInt16
  newPort : Option UInt16
  memory : Bool

def udpSendtoIfSrc (n : Netif) (env : SendEnv) (pcb : UdpPcb) (p : Packet) (dstIp : UInt32)
    (dstPort : UInt16) (srcIp : UInt32) : UdpPcb × UInt16 × Output :=
  if !pcb.sofBroadcast && ip4AddrIsbroadcast dstIp n then (pcb, env.ipId, .err .val)
  else
    match if pcb.localPort = 0 then env.newPort else some pcb.localPort with
    | none => (pcb, env.ipId, .err .use)
    | some localPort =>
      let pcb := { pcb with localPort }
      if 0x10000 ≤ p.totLen + udpHlen then (pcb, env.ipId, .err .mem)
      else
        match udpChain p env.memory with
        | none => (pcb, env.ipId, .err .mem)
        | some q =>
          let h := udpSealed pcb.noChksum q (udpHeader localPort dstPort p) srcIp dstIp
          (pcb, ip4OutputIfSrc n env.ipId (q h.bytes) srcIp dstIp pcb.ttl pcb.tos ipProtoUdp)

def udpSendto (n : Netif) (env : SendEnv) (pcb : UdpPcb) (p : Packet) (dstIp : UInt32)
    (dstPort : UInt16) : UdpPcb × UInt16 × Output :=
  if ip4Route n dstIp = false then (pcb, env.ipId, .err .rte)
  else if pcb.localIp = 0 ∨ ip4AddrIsmulticast pcb.localIp then
    udpSendtoIfSrc n env pcb p dstIp dstPort n.ipAddr
  else if pcb.localIp ≠ n.ipAddr then (pcb, env.ipId, .err .rte)
  else udpSendtoIfSrc n env pcb p dstIp dstPort pcb.localIp

/-! ## Sums of headers -/

theorem octets_even {xs : List UInt8} (k : Nat) (h : xs.length = 2 * k) (ys : List UInt8) :
    octets (xs ++ ys) = octets xs + octets ys := by
  rw [octets_append, show (256 : Carried) = ((256 : ℕ) : Carried) from rfl,
    OnesComplement.pow_even carried_byte (by omega), one_mul]

theorem octets_nil : octets [] = 0 := Nat.cast_zero

@[simp] theorem octets_put16 (x : UInt16) : octets (put16 x) = x.toNat := by
  rw [octets, value16]

@[simp] theorem octets_put32 (x : UInt32) : octets (put32 x) = x.toNat := by
  rw [octets, value32]

@[simp] theorem octets_put16_append (x : UInt16) (ys : List UInt8) :
    octets (put16 x ++ ys) = x.toNat + octets ys := by
  rw [octets_even 1 rfl, octets_put16]

@[simp] theorem octets_put32_append (x : UInt32) (ys : List UInt8) :
    octets (put32 x ++ ys) = x.toNat + octets ys := by
  rw [octets_even 2 rfl, octets_put32]

@[simp] theorem octets_pair_append (x y : UInt8) (ys : List UInt8) :
    octets ([x, y] ++ ys) = x.toNat + 256 * y.toNat + octets ys := by
  rw [octets_even 1 rfl, octets, List.map_cons, List.map_cons, List.map_nil, Nat.ofDigits_cons,
    Nat.ofDigits_singleton, Nat.cast_add, Nat.cast_mul]
  rfl

theorem octets_ipHdr (h : IpHdr) (ys : List UInt8) :
    octets (h.bytes ++ ys) = h.vHl.toNat + 256 * h.tos.toNat + h.len.toNat + h.id.toNat +
      h.offset.toNat + (h.ttl.toNat + 256 * h.proto.toNat) + h.chksum.toNat + h.src.toNat +
      h.dest.toNat + octets ys := by
  simp only [IpHdr.bytes, List.append_assoc, octets_pair_append, octets_put16_append,
    octets_put32_append]
  ring

theorem octets_udpHdr (h : UdpHdr) (ys : List UInt8) :
    octets (h.bytes ++ ys) =
      h.src.toNat + h.dest.toNat + h.len.toNat + h.chksum.toNat + octets ys := by
  simp only [UdpHdr.bytes, List.append_assoc, octets_put16_append]
  ring

theorem pair_toNat (lo hi : UInt8) :
    (lwipHtons (lo.toUInt16 ||| hi.toUInt16 <<< 8)).toNat =
      OnesComplement.swap 256 (256 * hi.toNat + lo.toNat) := by
  rw [lwipHtons_toNat, UInt16.or_comm]
  exact congrArg _ (BigEndian.word_toNat hi lo)

theorem ipChkSum_toNat (h : IpHdr) :
    (ipChkSum h).toNat =
      OnesComplement.swap 256 (256 * h.ttl.toNat + h.proto.toNat) +
        OnesComplement.fold 65536 h.dest.toNat +
        OnesComplement.swap 256 (256 * h.vHl.toNat + h.tos.toNat) + h.len.toNat + h.id.toNat +
        OnesComplement.fold 65536 h.src.toNat := by
  have hdest := h.dest.toNat_lt
  have hsrc := h.src.toNat_lt
  have hlen := h.len.toNat_lt
  have hid := h.id.toNat_lt
  have hpair : ∀ lo hi : UInt8, OnesComplement.swap 256 (256 * hi.toNat + lo.toNat) < 65536 :=
    fun lo hi => OnesComplement.swap_lt (b := 256) (by
      have := hi.toNat_lt
      have := lo.toNat_lt
      omega)
  have hproto := hpair h.proto h.ttl
  have htos := hpair h.tos h.vHl
  simp only [ipChkSum, UInt32.toNat_add, pair_toNat, low_toNat, high_toNat,
    UInt16.toNat_toUInt32, OnesComplement.fold]
  omega

/-- **The checksum of an IP header**, summed up while it is written. -/
theorem inlineChksum_eq {h : IpHdr} (hv : h.vHl ≠ 0) (hoffset : h.offset = 0)
    (hchksum : h.chksum = 0) : (inlineChksum h).toNat = (-octets h.bytes).val := by
  have hsum := ipChkSum_toNat h
  have hcast : ((ipChkSum h).toNat : Carried) = octets h.bytes := by
    have hbytes := octets_ipHdr h []
    rw [List.append_nil] at hbytes
    rw [hbytes, hoffset, hchksum, hsum]
    have hsq : (256 : Carried) * 256 = 1 := carried_byte
    have hzero : ((UInt16.toNat 0 : ℕ) : Carried) = 0 := Nat.cast_zero
    simp only [Nat.cast_add, OnesComplement.cast_fold carried_word,
      OnesComplement.cast_swap carried_byte, Nat.cast_mul, Nat.cast_ofNat, hzero, octets_nil]
    linear_combination ((h.ttl.toNat : Carried) + h.vHl.toNat) * hsq
  have hpos : 0 < (ipChkSum h).toNat := by
    have hpos : 0 < h.vHl.toNat :=
      Nat.pos_of_ne_zero fun h0 => hv (UInt8.toNat_inj.mp h0)
    have := OnesComplement.swap_pos (b := 256) (x := 256 * h.vHl.toNat + h.tos.toNat) (by omega)
      (by omega)
    omega
  have hfold := foldU32T_toNat (ipChkSum h)
  have hlt := OnesComplement.fold_lt_twice (n := 65536) (ipChkSum h).toNat_lt
  have hpos' := OnesComplement.fold_pos (n := 65536) (OnesComplement.fold_pos (n := 65536) hpos)
  have hlt' := OnesComplement.fold_lt (n := 65536) hlt
  have hcomplement : (inlineChksum h).toNat =
      65535 - OnesComplement.fold 65536 (OnesComplement.fold 65536 (ipChkSum h).toNat) := by
    unfold inlineChksum
    rw [← hfold] at hlt hlt' ⊢
    change ((~~~((foldU32T (ipChkSum h) >>> 16) + foldU32T (ipChkSum h))).toUInt16).toNat = _
    generalize foldU32T (ipChkSum h) = c at *
    have hadd : (c >>> 16 + c).toNat = c.toNat / 65536 + c.toNat := by
      rw [UInt32.toNat_add, high_toNat, Nat.mod_eq_of_lt (by omega)]
    rw [UInt32.toNat_toUInt16, UInt32.toNat_not, hadd, OnesComplement.fold]
    show (2 ^ 32 - 1 - (c.toNat / 65536 + c.toNat)) % 2 ^ 16 = _
    omega
  rw [hcomplement]
  refine OnesComplement.sub_eq_val hpos' (by omega) ?_
  rw [OnesComplement.cast_fold carried_word, OnesComplement.cast_fold carried_word, hcast]

theorem ipHdr_sealed {h : IpHdr} (hv : h.vHl ≠ 0) (hoffset : h.offset = 0)
    (hchksum : h.chksum = 0) : octets { h with chksum := inlineChksum h }.bytes = 0 := by
  have hcast : ((inlineChksum h).toNat : Carried) = -octets h.bytes := by
    rw [inlineChksum_eq hv hoffset hchksum, ZMod.natCast_zmod_val]
  have h0 := octets_ipHdr h []
  have h1 := octets_ipHdr { h with chksum := inlineChksum h } []
  rw [List.append_nil] at h0 h1
  rw [hchksum, show ((UInt16.toNat 0 : ℕ) : Carried) = 0 from Nat.cast_zero] at h0
  rw [h1]
  dsimp only
  rw [hcast, h0]
  ring

/-! ## Datagrams -/

def udpSum (i : IpHdr) (u : UdpHdr) (payload : List UInt8) : Carried :=
  pseudoSum (u.bytes ++ payload) ipProtoUdp (UInt16.ofNat (payload.length + udpHlen)) i.src i.dest

/-- A UDP datagram, with the sums of its headers. -/
structure Datagram where
  ip : IpHdr
  udp : UdpHdr
  payload : List UInt8
  vHl : ip.vHl = 0x45
  len : ip.len = lwipHtons (UInt16.ofNat (payload.length + udpHlen + ipHlen))
  size : payload.length + udpHlen + ipHlen < 0x10000
  offset : ip.offset = 0
  proto : ip.proto = ipProtoUdp
  ipZero : octets ip.bytes = 0
  udpZero : udp.chksum = 0 ∨ udpSum ip udp payload = 0

def Datagram.packet (d : Datagram) : List UInt8 := d.ip.bytes ++ (d.udp.bytes ++ d.payload)

theorem udpChain_bytes {p : Packet} {memory : Bool} {q : List UInt8 → Packet}
    (hq : udpChain p memory = some q) (h : List UInt8) : (q h).bytes = h ++ p.bytes := by
  unfold udpChain at hq
  split at hq
  · obtain rfl := Option.some.inj hq
    exact front_bytes p h
  · split at hq
    · obtain rfl := Option.some.inj hq
      show (if p.totLen ≠ 0 then h :: p.pbufs else [h]).flatten = _
      split
      · rfl
      · next hzero =>
        rw [List.length_eq_zero_iff.mp (not_not.mp hzero), List.append_nil]
        exact List.append_nil h
    · cases hq

/-- **`ip4_output_if_src`**, when the packet is not fragmented. -/
theorem ip4OutputIfSrc_packet {n : Netif} {ipId : UInt16} {p q : Packet} {src dest ip : UInt32}
    {ttl tos proto : UInt8}
    (h : (ip4OutputIfSrc n ipId p src dest ttl tos proto).2 = .output q ip) :
    ip = dest ∧ ∃ i : IpHdr, q.bytes = i.bytes ++ p.bytes ∧ i.vHl = 0x45 ∧
      i.len = lwipHtons (UInt16.ofNat (p.totLen + ipHlen)) ∧ i.offset = 0 ∧ i.proto = proto ∧
      i.src = src ∧ i.dest = dest ∧ octets i.bytes = 0 ∧ p.totLen + ipHlen < 0x10000 := by
  unfold ip4OutputIfSrc at h
  split at h
  · next hfits =>
    dsimp only at h
    split at h
    · cases h
    · obtain ⟨rfl, rfl⟩ := Output.output.inj h
      have hv : (ip4Header ipId p src dest ttl tos proto).vHl ≠ 0 := by
        show (0x45 : UInt8) ≠ 0
        decide
      exact ⟨rfl, _, front_bytes .., rfl, rfl, rfl, rfl, rfl, rfl, ipHdr_sealed hv rfl rfl,
        Nat.add_comm .. ▸ hfits.1⟩
  · cases h

/-- The checksum of a header whose field is 0 makes the sum 0, and is not 0 itself. -/
theorem udpChksum_spec {q : List UInt8 → Packet} {i : IpHdr} {u : UdpHdr} {payload : List UInt8}
    (hq : (q u.bytes).bytes = u.bytes ++ payload) (hu : u.chksum = 0)
    (hsize : payload.length + udpHlen < 0x10000) :
    udpChksum q u i.src i.dest ≠ 0 ∧
      udpSum i { u with chksum := udpChksum q u i.src i.dest } payload = 0 := by
  have hlen : (q u.bytes).totLen = payload.length + udpHlen := by
    rw [Packet.totLen, hq, List.length_append, UdpHdr.bytes_length, Nat.add_comm]
  have hpbufs : ∀ b ∈ (q u.bytes).pbufs, b.length < 65536 := by
    intro b hb
    have hle := (List.sublist_flatten_of_mem hb).length_le
    rw [← Packet.bytes, ← Packet.totLen, hlen] at hle
    omega
  have hproto : ipProtoUdp ≠ 0 := by decide
  have hchk := inetChksumPseudo_eq hpbufs hproto (UInt16.ofNat (q u.bytes).totLen) i.src i.dest
  rw [← Packet.bytes, hq, hlen] at hchk
  have hsum : ∀ c : UInt16, udpSum i { u with chksum := c } payload =
      udpSum i u payload + c.toNat := by
    intro c
    rw [udpSum, udpSum, pseudoSum, pseudoSum, octets_udpHdr, octets_udpHdr, hu,
      show ((UInt16.toNat 0 : ℕ) : Carried) = 0 from Nat.cast_zero]
    ring
  rw [hsum]
  unfold udpChksum
  rw [hlen]
  generalize inetChksumPseudo (q u.bytes).pbufs ipProtoUdp
    (UInt16.ofNat (payload.length + udpHlen)) i.src i.dest = c at hchk ⊢
  have hcast : (c.toNat : Carried) = -udpSum i u payload := by
    rw [hchk, ZMod.natCast_zmod_val]
    rfl
  dsimp only
  split
  · next hzero =>
    rw [hzero, show ((UInt16.toNat 0 : ℕ) : Carried) = 0 from Nat.cast_zero] at hcast
    refine ⟨by decide, ?_⟩
    rw [neg_eq_zero.mp hcast.symm, zero_add]
    exact ZMod.natCast_self 65535
  · next hne =>
    refine ⟨hne, ?_⟩
    rw [hcast, add_neg_cancel]

theorem udpSealed_spec {q : List UInt8 → Packet} {i : IpHdr} {u : UdpHdr} {payload : List UInt8}
    (noChksum : Bool) (hq : (q u.bytes).bytes = u.bytes ++ payload) (hu : u.chksum = 0)
    (hsize : payload.length + udpHlen < 0x10000) :
    (udpSealed noChksum q u i.src i.dest).src = u.src ∧
      (udpSealed noChksum q u i.src i.dest).dest = u.dest ∧
      (noChksum = false → (udpSealed noChksum q u i.src i.dest).chksum ≠ 0) ∧
      ((udpSealed noChksum q u i.src i.dest).chksum = 0 ∨
        udpSum i (udpSealed noChksum q u i.src i.dest) payload = 0) := by
  cases noChksum with
  | true => exact ⟨rfl, rfl, fun h => absurd h.symm Bool.false_ne_true, .inl hu⟩
  | false =>
    obtain ⟨hne, hsum⟩ := udpChksum_spec hq hu hsize
    exact ⟨rfl, rfl, fun _ => hne, .inr hsum⟩

theorem udpSendtoIfSrc_packet {n : Netif} {env : SendEnv} {pcb pcb' : UdpPcb} {p q : Packet}
    {dstIp srcIp ip : UInt32} {dstPort ipId : UInt16}
    (h : udpSendtoIfSrc n env pcb p dstIp dstPort srcIp = (pcb', ipId, .output q ip)) :
    ip = dstIp ∧ ∃ d : Datagram, q.bytes = d.packet ∧ d.payload = p.bytes ∧ d.ip.src = srcIp ∧
      d.ip.dest = dstIp ∧ d.udp.src = lwipHtons pcb'.localPort ∧
      d.udp.dest = lwipHtons dstPort ∧ (pcb.noChksum = false → d.udp.chksum ≠ 0) := by
  unfold udpSendtoIfSrc at h
  split at h
  · cases (Prod.mk.inj (Prod.mk.inj h).2).2
  · split at h
    · cases (Prod.mk.inj (Prod.mk.inj h).2).2
    · next localPort hport =>
      dsimp only at h
      split at h
      · cases (Prod.mk.inj (Prod.mk.inj h).2).2
      · next hsize =>
        split at h
        · cases (Prod.mk.inj (Prod.mk.inj h).2).2
        · next q hq =>
          obtain ⟨rfl, hout⟩ := Prod.mk.inj h
          obtain ⟨rfl, i, hbytes, hvHl, hlen, hoffset, hproto, hsrc, hdest, hzero, hlt⟩ :=
            ip4OutputIfSrc_packet (congrArg Prod.snd hout)
          have hsize' : p.bytes.length + udpHlen < 0x10000 := Nat.lt_of_not_le hsize
          obtain ⟨husrc, hudest, hne, hsum⟩ := udpSealed_spec (i := i)
            (u := udpHeader localPort dstPort p) pcb.noChksum (udpChain_bytes hq _) rfl hsize'
          rw [hsrc, hdest] at husrc hudest hne hsum
          have htot := udpChain_bytes hq
            (udpSealed pcb.noChksum q (udpHeader localPort dstPort p) srcIp ip).bytes
          generalize udpSealed pcb.noChksum q (udpHeader localPort dstPort p) srcIp ip = u at *
          have hlen' : (q u.bytes).totLen = p.bytes.length + udpHlen := by
            rw [Packet.totLen, htot, List.length_append, UdpHdr.bytes_length, Nat.add_comm]
          rw [hlen'] at hlen hlt
          rw [htot] at hbytes
          exact ⟨rfl, ⟨i, u, p.bytes, hvHl, hlen, hlt, hoffset, hproto, hzero, hsum⟩, hbytes,
            rfl, hsrc, hdest, husrc, hudest, hne⟩

/-- **`udp_sendto`**, when the datagram is sent. -/
theorem udpSendto_packet {n : Netif} {env : SendEnv} {pcb pcb' : UdpPcb} {p q : Packet}
    {dstIp ip : UInt32} {dstPort ipId : UInt16}
    (h : udpSendto n env pcb p dstIp dstPort = (pcb', ipId, .output q ip)) :
    ip = dstIp ∧ ∃ d : Datagram, q.bytes = d.packet ∧ d.payload = p.bytes ∧
      d.ip.src = n.ipAddr ∧ d.ip.dest = dstIp ∧ d.udp.src = lwipHtons pcb'.localPort ∧
      d.udp.dest = lwipHtons dstPort ∧ (pcb.noChksum = false → d.udp.chksum ≠ 0) := by
  unfold udpSendto at h
  split at h
  · cases (Prod.mk.inj (Prod.mk.inj h).2).2
  · split at h
    · exact udpSendtoIfSrc_packet h
    · split at h
      · cases (Prod.mk.inj (Prod.mk.inj h).2).2
      · next hlocal =>
        rw [not_not.mp hlocal] at h
        exact udpSendtoIfSrc_packet h

end AdcUdpStream.Net
