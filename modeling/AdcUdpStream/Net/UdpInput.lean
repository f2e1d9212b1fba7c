import AdcUdpStream.Net.UdpOutput

/-!
# Receiving a datagram (`ethernet.c`, `ip4.c`, `udp.c`)

A frame, as the driver passes it on, goes through `ethernet_input`, `ip4_input` and
`udp_input` to the callback of a control block. What `udp_sendto` sends is delivered
there, also behind the padding of a short frame (`datagram_delivered`).
-/

namespace AdcUdpStream.Net

open LittleEndian

/-! ## Reading headers -/

def ipHdrAt (m : List UInt8) : IpHdr where
  vHl := m.getD 0 0
  tos := m.getD 1 0
  len := get16 m 2
  id := get16 m 4
  offset := get16 m 6
  ttl := m.getD 8 0
  proto := m.getD 9 0
  chksum := get16 m 10
  src := get32 m 12
  dest := get32 m 16

def udpHdrAt (m : List UInt8) : UdpHdr where
  src := get16 m 0
  dest := get16 m 2
  len := get16 m 4
  chksum := get16 m 6

theorem ipHdrAt_bytes (h : IpHdr) (m : List UInt8) : ipHdrAt (h.bytes ++ m) = h := by
  obtain ⟨vHl, tos, len, id, offset, ttl, proto, chksum, src, dest⟩ := h
  have h32 : ∀ x : UInt32, get32 (put32 x) 0 = x := fun x => by
    have := get32_put32 x []
    rwa [List.append_nil] at this
  refine IpHdr.mk.injEq .. ▸ ⟨rfl, rfl, BigEndian.word_bytes len, BigEndian.word_bytes id,
    BigEndian.word_bytes offset, rfl, rfl, BigEndian.word_bytes chksum, h32 src, h32 dest⟩

theorem udpHdrAt_bytes (h : UdpHdr) (m : List UInt8) : udpHdrAt (h.bytes ++ m) = h := by
  obtain ⟨src, dest, len, chksum⟩ := h
  exact UdpHdr.mk.injEq .. ▸ ⟨BigEndian.word_bytes src, BigEndian.word_bytes dest,
    BigEndian.word_bytes len, BigEndian.word_bytes chksum⟩

/-! ## Input -/

/-- What becomes of a frame. -/
inductive Input where
  | dropped
  | arp (p : List UInt8)
  | fragment (p : List UInt8)
  | transport (proto : UInt8) (p : List UInt8)
  | unreachable
  | delivered (pcb : UdpPcb) (payload : List UInt8) (addr : UInt32) (port : UInt16)
  deriving DecidableEq

structure UdpAddrs where
  src : UInt32
  dest : UInt32
  srcPort : UInt16
  destPort : UInt16

def udpInputLocalMatch (n : Netif) (pcb : UdpPcb) (dest : UInt32) (broadcast : Bool) : Bool :=
  if broadcast then
    pcb.sofBroadcast && (pcb.localIp = 0 || dest = 0xFFFFFFFF ||
      ip4AddrNetEq pcb.localIp dest n.netmask)
  else pcb.localIp = 0 || pcb.localIp = dest

/-- `uncon_pcb` behind a control block that matches locally. -/
def unconPcb (n : Netif) (dest : UInt32) (broadcast : Bool) (uncon : Option UdpPcb)
    (pcb : UdpPcb) : Option UdpPcb :=
  if pcb.connected then uncon
  else
    match uncon with
    | none => some pcb
    | some u =>
      if broadcast && dest = 0xFFFFFFFF && u.localIp ≠ n.ipAddr && pcb.localIp = n.ipAddr then
        some pcb
      else some u

/-- The loop of `udp_input` over `udp_pcbs`, of which `prev` lies behind it: the list it leaves and
the control block it finds. -/
def udpFind (n : Netif) (a : UdpAddrs) (broadcast : Bool) :
    Option UdpPcb → List UdpPcb → List UdpPcb → List UdpPcb × Option UdpPcb
  | uncon, prev, [] => (prev, uncon)
  | uncon, prev, pcb :: pcbs =>
    if pcb.localPort = a.destPort ∧ udpInputLocalMatch n pcb a.dest broadcast then
      if pcb.remotePort = a.srcPort ∧ (pcb.remoteIp = 0 ∨ pcb.remoteIp = a.src) then
        (pcb :: (prev ++ pcbs), some pcb)
      else
        udpFind n a broadcast (unconPcb n a.dest broadcast uncon pcb) (prev ++ [pcb]) pcbs
    else udpFind n a broadcast uncon (prev ++ [pcb]) pcbs

def udpInput (n : Netif) (pcbs : List UdpPcb) (src dest : UInt32) (p : List UInt8) :
    List UdpPcb × Input :=
  if p.length < udpHlen then (pcbs, .dropped)
  else
    let h := udpHdrAt p
    let a : UdpAddrs := ⟨src, dest, lwipHtons h.src, lwipHtons h.dest⟩
    let broadcast := ip4AddrIsbroadcast dest n
    let (pcbs, pcb) := udpFind n a broadcast none [] pcbs
    if pcb.isSome ∨ n.ipAddr = dest then
      if h.chksum ≠ 0 ∧ inetChksumPseudo [p] ipProtoUdp (UInt16.ofNat p.length) src dest ≠ 0 then
        (pcbs, .dropped)
      else
        match pcb with
        | some pcb =>
          (pcbs, if pcb.recv then .delivered pcb (p.drop udpHlen) src a.srcPort else .dropped)
        | none =>
          (pcbs, if !broadcast && !ip4AddrIsmulticast dest then .unreachable else .dropped)
    else (pcbs, .dropped)

def ip4InputAccept (n : Netif) (dest : UInt32) : Bool :=
  (n.up && n.ipAddr ≠ 0) && (dest = n.ipAddr || ip4AddrIsbroadcast dest n)

/-- `beyond` is what lies in memory behind the packet: a header that does not fit is read there. -/
def ip4Input (n : Netif) (pcbs : List UdpPcb) (p beyond : List UInt8) : List UdpPcb × Input :=
  let h := ipHdrAt (p ++ beyond)
  if h.vHl >>> 4 ≠ 4 then (pcbs, .dropped)
  else
    let iphdrHlen := (h.vHl &&& 0x0F).toNat * 4
    let iphdrLen := (lwipHtons h.len).toNat
    let p := if iphdrLen < p.length then p.take iphdrLen else p
    if p.length < iphdrHlen ∨ p.length < iphdrLen ∨ iphdrHlen < ipHlen then (pcbs, .dropped)
    else if inetChksum (p.take iphdrHlen) ≠ 0 then (pcbs, .dropped)
    else
      let accept :=
        if ip4AddrIsmulticast h.dest then n.up && n.ipAddr ≠ 0 else ip4InputAccept n h.dest
      if ip4AddrIsbroadcast h.src n ∨ ip4AddrIsmulticast h.src then (pcbs, .dropped)
      else if accept = false then (pcbs, .dropped)
      else if h.offset &&& lwipHtons 0x3FFF ≠ 0 then (pcbs, .fragment p)
      else if h.proto = ipProtoUdp then udpInput n pcbs h.src h.dest (p.drop iphdrHlen)
      else (pcbs, .transport h.proto (p.drop iphdrHlen))

def ethernetInput (n : Netif) (pcbs : List UdpPcb) (frame beyond : List UInt8) :
    List UdpPcb × Input :=
  if frame.length ≤ sizeofEthHdr then (pcbs, .dropped)
  else if get16 frame 12 = lwipHtons ethtypeIpWord then
    ip4Input n pcbs (frame.drop sizeofEthHdr) beyond
  else if get16 frame 12 = lwipHtons ethtypeArpWord then (pcbs, .arp (frame.drop sizeofEthHdr))
  else (pcbs, .dropped)

/-! ## Delivery -/

theorem lwipHtons_lwipHtons (x : UInt16) : lwipHtons (lwipHtons x) = x := by
  have hx := x.toNat_lt
  apply UInt16.toNat_inj.mp
  rw [lwipHtons_toNat, lwipHtons_toNat]
  unfold OnesComplement.swap
  omega

theorem inetChksum_zero {i : IpHdr} (hv : i.vHl ≠ 0) (h : octets i.bytes = 0) :
    inetChksum i.bytes = 0 := by
  have hlen : i.bytes.length < 65536 := by
    rw [IpHdr.bytes_length]
    decide
  have hchk := inetChksum_eq hlen ⟨i.vHl, List.mem_cons_self, hv⟩
  rw [h, neg_zero, ZMod.val_zero] at hchk
  exact UInt16.toNat_inj.mp hchk

theorem pseudo_zero_iff {p : List UInt8} (hlen : p.length < 65536) (src dest : UInt32) :
    inetChksumPseudo [p] ipProtoUdp (UInt16.ofNat p.length) src dest = 0 ↔
      pseudoSum p ipProtoUdp (UInt16.ofNat p.length) src dest = 0 := by
  have hproto : ipProtoUdp ≠ 0 := by decide
  have hchk := inetChksumPseudo_eq (p := [p]) (fun q hq => by rwa [List.mem_singleton.mp hq])
    hproto (UInt16.ofNat p.length) src dest
  rw [List.flatten_singleton] at hchk
  rw [← UInt16.toNat_inj, hchk]
  show ZMod.val _ = 0 ↔ _
  rw [ZMod.val_eq_zero, neg_eq_zero]

/-- **`ip4_input`** of a datagram's header, of as many bytes as it announces, and of what the link
put behind them. -/
theorem ip4Input_datagram (d : Datagram) {body : List UInt8}
    (hbody : body.length = d.payload.length + udpHlen) {n : Netif}
    (hacc : ip4InputAccept n d.ip.dest = true)
    (hbroadcast : ip4AddrIsbroadcast d.ip.src n = false)
    (hmulticast : ip4AddrIsmulticast d.ip.src = false) (pcbs : List UdpPcb)
    (pad beyond : List UInt8) :
    ip4Input n pcbs (d.ip.bytes ++ body ++ pad) beyond =
      udpInput n pcbs d.ip.src d.ip.dest body := by
  have hlen : (d.ip.bytes ++ body).length = d.payload.length + udpHlen + ipHlen := by
    rw [List.length_append, IpHdr.bytes_length, hbody, Nat.add_comm]
  have hread : ipHdrAt (d.ip.bytes ++ body ++ pad ++ beyond) = d.ip := by
    rw [List.append_assoc, List.append_assoc, ipHdrAt_bytes]
  have hlenWord : (lwipHtons d.ip.len).toNat = (d.ip.bytes ++ body).length := by
    rw [d.len, lwipHtons_lwipHtons, UInt16.toNat_ofNat_of_lt' d.size, hlen]
  have hhlen : (d.ip.vHl &&& 0x0F).toNat * 4 = ipHlen := by
    rw [d.vHl]
    rfl
  have hup : (if ip4AddrIsmulticast d.ip.dest then n.up && n.ipAddr ≠ 0
      else ip4InputAccept n d.ip.dest) = true := by
    split
    · exact (Bool.and_eq_true_iff.mp hacc).1
    · exact hacc
  have hv4 : ¬d.ip.vHl >>> 4 ≠ 4 := by
    rw [d.vHl]
    decide
  have hv0 : d.ip.vHl ≠ 0 := by
    rw [d.vHl]
    decide
  have hzero := inetChksum_zero hv0 d.ipZero
  have hhdr : (d.ip.bytes ++ body).take ipHlen = d.ip.bytes := by
    rw [← d.ip.bytes_length, List.take_left]
  have hdrop : (d.ip.bytes ++ body).drop ipHlen = body := by
    rw [← d.ip.bytes_length, List.drop_left]
  have hoffset : ¬d.ip.offset &&& lwipHtons 0x3FFF ≠ 0 := by
    rw [d.offset]
    decide
  unfold ip4Input
  dsimp only
  rw [hread, if_neg hv4, hlenWord]
  generalize d.ip.bytes ++ body = q at *
  have htrim : (if q.length < (q ++ pad).length then (q ++ pad).take q.length else q ++ pad) =
      q := by
    split
    · exact List.take_left
    · next hnot =>
      rw [List.length_append] at hnot
      rw [List.length_eq_zero_iff.mp (by omega : pad.length = 0), List.append_nil]
  rw [htrim, hhlen, if_neg (by omega), hhdr, if_neg (not_not.mpr hzero),
    if_neg (by rw [hbroadcast, hmulticast]; decide), hup, if_neg (by decide), if_neg hoffset,
    if_pos d.proto, hdrop]

section Find

variable {n : Netif} {a : UdpAddrs} {broadcast : Bool} {r : UdpPcb}

theorem udpFind_unique (hport : r.localPort = a.destPort)
    (hmatch : udpInputLocalMatch n r a.dest broadcast = true) (hconn : r.connected = false)
    {pcbs prev : List UdpPcb} {uncon : Option UdpPcb}
    (honly : ∀ q ∈ pcbs, q.localPort = a.destPort → q = r)
    (hr : uncon = some r ∨ uncon = none ∧ r ∈ pcbs) :
    (udpFind n a broadcast uncon prev pcbs).2 = some r := by
  induction pcbs generalizing uncon prev with
  | nil =>
    rcases hr with rfl | ⟨-, hr⟩
    · rfl
    · cases hr
  | cons q pcbs ih =>
    have hrest : ∀ q ∈ pcbs, q.localPort = a.destPort → q = r := fun q hq =>
      honly q (List.mem_cons_of_mem _ hq)
    rw [udpFind]
    split
    · next hlocal =>
      have hq := honly q List.mem_cons_self hlocal.1
      split
      · exact congrArg some hq
      · refine ih hrest (.inl ?_)
        rw [hq]
        unfold unconPcb
        rw [hconn, if_neg Bool.false_ne_true]
        rcases hr with rfl | ⟨rfl, -⟩
        · dsimp only
          split <;> rfl
        · rfl
    · next hlocal =>
      refine ih hrest (hr.imp_right fun ⟨hnone, hmem⟩ => ⟨hnone, ?_⟩)
      refine (List.mem_cons.mp hmem).resolve_left fun heq => hlocal ?_
      rw [← heq]
      exact ⟨hport, hmatch⟩

end Find

/-- A control block that takes the datagrams for its port. -/
structure UdpPcb.Serves (r : UdpPcb) (pcbs : List UdpPcb) (n : Netif) (dest : UInt32)
    (port : UInt16) : Prop where
  mem : r ∈ pcbs
  localPort : r.localPort = port
  only : ∀ q ∈ pcbs, q.localPort = port → q = r
  localMatch : udpInputLocalMatch n r dest (ip4AddrIsbroadcast dest n) = true
  connected : r.connected = false
  recv : r.recv = true

/-- **`udp_input`** of bytes behind a header, for a control block that takes them: what it does
depends on the checksum alone. -/
theorem udpInput_serves {n : Netif} {pcbs : List UdpPcb} {r : UdpPcb} {src dest : UInt32}
    (u : UdpHdr) (payload : List UInt8) (hsize : payload.length + udpHlen < 0x10000)
    (h : r.Serves pcbs n dest (lwipHtons u.dest)) :
    (udpInput n pcbs src dest (u.bytes ++ payload)).2 =
      if u.chksum ≠ 0 ∧ pseudoSum (u.bytes ++ payload) ipProtoUdp
          (UInt16.ofNat (payload.length + udpHlen)) src dest ≠ 0 then .dropped
      else .delivered r payload src (lwipHtons u.src) := by
  have hlen : (u.bytes ++ payload).length = payload.length + udpHlen := by
    rw [List.length_append, UdpHdr.bytes_length, Nat.add_comm]
  have hfind : (udpFind n ⟨src, dest, lwipHtons u.src, lwipHtons u.dest⟩
      (ip4AddrIsbroadcast dest n) none [] pcbs).2 = some r :=
    udpFind_unique h.localPort h.localMatch h.connected h.only (.inr ⟨rfl, h.mem⟩)
  unfold udpInput
  rw [if_neg (by omega), udpHdrAt_bytes]
  dsimp only
  rw [hfind, if_pos (.inl rfl)]
  have hchk := pseudo_zero_iff (p := u.bytes ++ payload) (by omega) src dest
  rw [hlen] at hchk ⊢
  by_cases hbad : u.chksum ≠ 0 ∧ pseudoSum (u.bytes ++ payload) ipProtoUdp
      (UInt16.ofNat (payload.length + udpHlen)) src dest ≠ 0
  · rw [if_pos hbad, if_pos ⟨hbad.1, mt hchk.mp hbad.2⟩]
  · rw [if_neg hbad, if_neg fun h => hbad ⟨h.1, mt hchk.mpr h.2⟩]
    dsimp only
    rw [if_pos h.recv, ← u.bytes_length, List.drop_left]

/-- A station that takes `d`. -/
structure Datagram.For (d : Datagram) (n : Netif) (pcbs : List UdpPcb) (r : UdpPcb) : Prop where
  accept : ip4InputAccept n d.ip.dest = true
  broadcast : ip4AddrIsbroadcast d.ip.src n = false
  multicast : ip4AddrIsmulticast d.ip.src = false
  serves : r.Serves pcbs n d.ip.dest (lwipHtons d.udp.dest)

theorem Datagram.body_length (d : Datagram) :
    (d.udp.bytes ++ d.payload).length = d.payload.length + udpHlen := by
  rw [List.length_append, UdpHdr.bytes_length, Nat.add_comm]

section Ethernet

variable {e : EthHdr} (he : e.type = lwipHtons ethtypeIpWord)
include he

theorem ethernetInput_ip {n : Netif} {pcbs : List UdpPcb} {p : List UInt8} (hp : p ≠ [])
    (beyond : List UInt8) :
    ethernetInput n pcbs (e.bytes ++ p) beyond = ip4Input n pcbs p beyond := by
  have hlen : ¬(e.bytes ++ p).length ≤ sizeofEthHdr := by
    have := List.length_pos_iff.mpr hp
    rw [List.length_append, EthHdr.bytes_length]
    omega
  rw [ethernetInput, if_neg hlen, if_pos (by rw [ethType_bytes, he]), ← e.bytes_length,
    List.drop_left]

/-- **`ethernet_input`** of a datagram's header and of other bytes in the place of what follows. -/
theorem ethernetInput_datagram (d : Datagram) {body : List UInt8}
    (hbody : body.length = d.payload.length + udpHlen) {n : Netif} {pcbs : List UdpPcb}
    {r : UdpPcb} (h : d.For n pcbs r) (pad beyond : List UInt8) :
    ethernetInput n pcbs (e.bytes ++ (d.ip.bytes ++ body ++ pad)) beyond =
      udpInput n pcbs d.ip.src d.ip.dest body := by
  have hne : d.ip.bytes ++ body ++ pad ≠ [] := List.cons_ne_nil _ _
  rw [ethernetInput_ip he hne, ip4Input_datagram d hbody h.accept h.broadcast h.multicast]

theorem Datagram.delivered (d : Datagram) {n : Netif} {pcbs : List UdpPcb} {r : UdpPcb}
    (h : d.For n pcbs r) (pad beyond : List UInt8) :
    (ethernetInput n pcbs (e.bytes ++ (d.packet ++ pad)) beyond).2 =
      .delivered r d.payload d.ip.src (lwipHtons d.udp.src) := by
  rw [Datagram.packet, ethernetInput_datagram he d d.body_length h,
    udpInput_serves d.udp d.payload (by have := d.size; omega) h.serves, if_neg]
  rintro ⟨hchksum, hsum⟩
  exact d.udpZero.elim hchksum hsum

theorem udpSendto_delivered {n m : Netif} {env : SendEnv} {pcb pcb' r : UdpPcb}
    {pcbs : List UdpPcb} {p q : Packet} {dstIp ip : UInt32} {dstPort ipId : UInt16}
    (hsend : udpSendto n env pcb p dstIp dstPort = (pcb', ipId, .output q ip))
    (haccept : ip4InputAccept m dstIp = true) (hbroadcast : ip4AddrIsbroadcast n.ipAddr m = false)
    (hmulticast : ip4AddrIsmulticast n.ipAddr = false) (hserves : r.Serves pcbs m dstIp dstPort)
    (pad beyond : List UInt8) :
    (ethernetInput m pcbs (e.bytes ++ (q.bytes ++ pad)) beyond).2 =
      .delivered r p.bytes n.ipAddr pcb'.localPort := by
  obtain ⟨-, d, hq, hpayload, hsrc, hdest, husrc, hudest, -⟩ := udpSendto_packet hsend
  rw [← hsrc] at hbroadcast hmulticast
  rw [← hdest] at haccept hserves
  rw [← lwipHtons_lwipHtons dstPort, ← hudest] at hserves
  rw [hq, d.delivered he ⟨haccept, hbroadcast, hmulticast, hserves⟩, hpayload, hsrc, husrc,
    lwipHtons_lwipHtons]

end Ethernet

/-- **What `udp_sendto` sends is delivered** at a station that takes it: the payload, whatever pbufs
it lay in, from whatever to whatever Ethernet address, and behind any padding. -/
theorem datagram_delivered {n m : Netif} {env : SendEnv} {pcb pcb' r : UdpPcb}
    {pcbs : List UdpPcb} {p q f : Packet} {dstIp ip : UInt32} {dstPort ipId : UInt16}
    (hsend : udpSendto n env pcb p dstIp dstPort = (pcb', ipId, .output q ip))
    {src dst : EthAddr} (hframe : ethernetOutput q src dst ethtypeIpWord = some f)
    (haccept : ip4InputAccept m dstIp = true) (hbroadcast : ip4AddrIsbroadcast n.ipAddr m = false)
    (hmulticast : ip4AddrIsmulticast n.ipAddr = false) (hserves : r.Serves pcbs m dstIp dstPort)
    (pad beyond : List UInt8) :
    (ethernetInput m pcbs (f.bytes ++ pad) beyond).2 =
      .delivered r p.bytes n.ipAddr pcb'.localPort := by
  rw [(ethernetOutput_frame hframe).1, List.append_assoc]
  exact udpSendto_delivered rfl hsend haccept hbroadcast hmulticast hserves pad beyond

/-- The interface of the server, 192.168.0.103. -/
def serverNetif : Netif where
  ipAddr := 0x6700A8C0
  netmask := 0x00FFFFFF
  gw := 0x0100A8C0
  mtu := 1500
  up := true
  linkUp := true
  broadcast := true
  hwaddr := #v[0x00, 0x60, 0x37, 0x12, 0x34, 0x56]

/-- The station the server sends to, 192.168.0.5. -/
def destNetif : Netif :=
  { serverNetif with ipAddr := 0x0500A8C0, hwaddr := #v[0x02, 0x00, 0x00, 0x00, 0x00, 0x05] }

/-- `upcb_data`, bound by its first datagram. -/
def dataEnv : SendEnv where
  ipId := 7
  newPort := some 49152
  memory := true

def fourBytes : Packet where
  room := 28
  pbufs := [[69, 0, 0, 32, 0, 7, 0, 0, 255, 17, 58, 9, 192, 168, 0, 103, 192, 168, 0, 5, 192, 0,
    7, 209, 0, 12, 178, 65, 1, 2, 3], [4]]

theorem fourBytes_sent :
    udpSendto serverNetif dataEnv {} ⟨56, [[1, 2, 3], [4]]⟩ 0x0500A8C0 2001 =
      ({ localPort := 49152 }, 8, .output fourBytes 0x0500A8C0) := by
  decide +kernel

def fourBytesFrame : Packet where
  room := 14
  pbufs := [[2, 0, 0, 0, 0, 5, 0, 96, 55, 18, 52, 86, 8, 0, 69, 0, 0, 32, 0, 7, 0, 0, 255, 17,
    58, 9, 192, 168, 0, 103, 192, 168, 0, 5, 192, 0, 7, 209, 0, 12, 178, 65, 1, 2, 3], [4]]

theorem fourBytes_frame :
    ethernetOutput fourBytes serverNetif.hwaddr destNetif.hwaddr ethtypeIpWord =
      some fourBytesFrame := by
  decide +kernel

/-- What waits for them at the station. -/
def dataSink : UdpPcb where
  localPort := 2001
  recv := true

theorem dataSink_serves : dataSink.Serves [dataSink] destNetif 0x0500A8C0 2001 :=
  ⟨List.mem_singleton_self _, rfl, fun _ hq _ => List.mem_singleton.mp hq, rfl, rfl, rfl⟩

theorem datagram_delivered_four :
    (ethernetInput destNetif [dataSink] (fourBytesFrame.bytes ++ [0, 0]) []).2 =
      .delivered dataSink [1, 2, 3, 4] 0x6700A8C0 49152 :=
  datagram_delivered fourBytes_sent fourBytes_frame rfl rfl rfl dataSink_serves [0, 0] []

end AdcUdpStream.Net
