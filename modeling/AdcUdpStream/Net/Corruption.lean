import AdcUdpStream.Net.UdpInput

/-!
# What the checksums catch

A frame that was changed on its way is taken if the sums still come out. Other bytes
in the place of the payload are delivered when they have the payload's sum and never
else (`payload_replaced`), and no single byte can be changed so that something else
than what was sent is delivered (`byte_changed`): the header's checksum and the
datagram's cover all but the Ethernet header, which says nothing about the data.
The one byte left out is the first of the IP header, which says how long it is.
-/

namespace AdcUdpStream.Net

open LittleEndian

/-! ## Other bytes -/

/-- **A replaced payload** of the same length, of a datagram that was sent with its checksum. -/
theorem payload_replaced {n m : Netif} {env : SendEnv} {pcb pcb' r : UdpPcb}
    {pcbs : List UdpPcb} {p q f : Packet} {dstIp ip : UInt32} {dstPort ipId : UInt16}
    (hsend : udpSendto n env pcb p dstIp dstPort = (pcb', ipId, .output q ip))
    {src dst : EthAddr} (hframe : ethernetOutput q src dst ethtypeIpWord = some f)
    (hchksum : pcb.noChksum = false) (haccept : ip4InputAccept m dstIp = true)
    (hbroadcast : ip4AddrIsbroadcast n.ipAddr m = false)
    (hmulticast : ip4AddrIsmulticast n.ipAddr = false) (hserves : r.Serves pcbs m dstIp dstPort)
    {ys : List UInt8} (hlen : ys.length = p.totLen) (pad beyond : List UInt8) :
    (ethernetInput m pcbs (f.bytes.take (sizeofEthHdr + ipHlen + udpHlen) ++ ys ++ pad)
        beyond).2 =
      if octets ys = octets p.bytes then .delivered r ys n.ipAddr pcb'.localPort
      else .dropped := by
  obtain ⟨-, d, hq, hpayload, hsrc, hdest, husrc, hudest, hne⟩ := udpSendto_packet hsend
  have hne := hne hchksum
  rw [← hsrc] at hbroadcast hmulticast
  rw [← hdest] at haccept hserves
  rw [← lwipHtons_lwipHtons dstPort, ← hudest] at hserves
  have hys : ys.length = d.payload.length := by rw [hlen, hpayload, Packet.totLen]
  generalize heth : (⟨dst, src, lwipHtons ethtypeIpWord⟩ : EthHdr) = e
  have htype : e.type = lwipHtons ethtypeIpWord := by rw [← heth]
  have hheaders : f.bytes.take (sizeofEthHdr + ipHlen + udpHlen) ++ ys ++ pad =
      e.bytes ++ (d.ip.bytes ++ (d.udp.bytes ++ ys) ++ pad) := by
    have hbytes : f.bytes = e.bytes ++ d.ip.bytes ++ d.udp.bytes ++ d.payload := by
      rw [(ethernetOutput_frame hframe).1, hq, heth, Datagram.packet, List.append_assoc,
        List.append_assoc]
    have hcut : (e.bytes ++ d.ip.bytes ++ d.udp.bytes).length =
        sizeofEthHdr + ipHlen + udpHlen := by
      rw [List.length_append, List.length_append, EthHdr.bytes_length, IpHdr.bytes_length,
        UdpHdr.bytes_length]
    rw [hbytes, ← hcut, List.take_left]
    simp only [List.append_assoc]
  have hbody : (d.udp.bytes ++ ys).length = d.payload.length + udpHlen := by
    rw [List.length_append, UdpHdr.bytes_length, hys, Nat.add_comm]
  rw [hheaders, ethernetInput_datagram htype d hbody ⟨haccept, hbroadcast, hmulticast, hserves⟩,
    udpInput_serves d.udp ys (by have := d.size; omega) hserves, husrc, lwipHtons_lwipHtons, hsrc,
    ← hpayload]
  -- what was sent adds up to 0, so the difference of the sums is left
  have hzero : udpSum d.ip d.udp d.payload = 0 := d.udpZero.resolve_left hne
  have hsum : pseudoSum (d.udp.bytes ++ ys) ipProtoUdp (UInt16.ofNat (ys.length + udpHlen))
      n.ipAddr d.ip.dest = octets ys - octets d.payload := by
    rw [udpSum, pseudoSum, octets_udpHdr, hsrc] at hzero
    rw [pseudoSum, octets_udpHdr, hys]
    linear_combination hzero
  by_cases hsame : octets ys = octets d.payload
  · rw [if_neg fun h => h.2 (by rw [hsum, hsame, sub_self]), if_pos hsame]
  · rw [if_pos ⟨hne, fun h => hsame (sub_eq_zero.mp (hsum.symm.trans h))⟩, if_neg hsame]

theorem payload_replaced_swapped :
    (ethernetInput destNetif [dataSink]
      (fourBytesFrame.bytes.take (sizeofEthHdr + ipHlen + udpHlen) ++ [3, 4, 1, 2] ++ []) []).2 =
      .delivered dataSink [3, 4, 1, 2] 0x6700A8C0 49152 := by
  have hlen : ([3, 4, 1, 2] : List UInt8).length = Packet.totLen ⟨56, [[1, 2, 3], [4]]⟩ := rfl
  rw [payload_replaced fourBytes_sent fourBytes_frame rfl rfl rfl rfl dataSink_serves hlen]
  exact if_pos rfl

/-! ## What a delivery says -/

section Delivered

variable {n : Netif} {pcbs : List UdpPcb} {src dest addr : UInt32} {r : UdpPcb}
  {p beyond ys : List UInt8} {port : UInt16}

/-- **`udp_input`** passes on what lies behind the header, and only with a sum of 0 if there is a
checksum. -/
theorem udpInput_delivered (h : (udpInput n pcbs src dest p).2 = .delivered r ys addr port)
    (hlen : p.length < 65536) :
    ((udpHdrAt p).chksum ≠ 0 →
        pseudoSum p ipProtoUdp (UInt16.ofNat p.length) src dest = 0) ∧
      ys = p.drop udpHlen ∧ addr = src ∧ port = lwipHtons (udpHdrAt p).src := by
  unfold udpInput at h
  split at h
  · cases h
  · dsimp only at h
    split at h
    · split at h
      · cases h
      · next hgood =>
        refine ⟨fun hne => ?_, ?_⟩
        · rw [← pseudo_zero_iff hlen]
          by_contra hbad
          exact hgood ⟨hne, hbad⟩
        · split at h
          · dsimp only at h
            split at h
            · injection h with _ hys haddr hport
              exact ⟨hys.symm, haddr.symm, hport.symm⟩
            · cases h
          · dsimp only at h
            split at h <;> cases h
    · cases h

/-- **`ip4_input`** of a header without options: it adds up to 0, and `udp_input` gets as much as
it announces. -/
theorem ip4Input_delivered (h : (ip4Input n pcbs p beyond).2 = .delivered r ys addr port)
    (hv : (ipHdrAt (p ++ beyond)).vHl = 0x45) :
    octets (p.take ipHlen) = 0 ∧
      (udpInput n pcbs (ipHdrAt (p ++ beyond)).src (ipHdrAt (p ++ beyond)).dest
        ((p.take (lwipHtons (ipHdrAt (p ++ beyond)).len).toNat).drop ipHlen)).2 =
        .delivered r ys addr port := by
  have hhlen : ((ipHdrAt (p ++ beyond)).vHl &&& 0x0F).toNat * 4 = ipHlen := by
    rw [hv]
    rfl
  unfold ip4Input at h
  dsimp only at h
  rw [hhlen] at h
  generalize hl : (lwipHtons (ipHdrAt (p ++ beyond)).len).toNat = len at h ⊢
  have htrim : (if len < p.length then p.take len else p) = p.take len := by
    split
    · rfl
    · next hle =>
      exact (List.take_of_length_le (Nat.le_of_not_lt hle)).symm
  rw [htrim] at h
  generalize (if ip4AddrIsmulticast (ipHdrAt (p ++ beyond)).dest then n.up && n.ipAddr ≠ 0
    else ip4InputAccept n (ipHdrAt (p ++ beyond)).dest) = accept at h
  split at h
  · cases h
  split at h
  · cases h
  next hshort =>
  have hle : ipHlen ≤ len ∧ len ≤ p.length := by
    rw [List.length_take] at hshort
    omega
  split at h
  · cases h
  next hchk =>
  rw [List.take_take, Nat.min_eq_left hle.1] at hchk
  refine ⟨?_, ?_⟩
  · have hhead : (p.take ipHlen).length = ipHlen := by
      rw [List.length_take]
      omega
    have hmem : ∃ x ∈ p.take ipHlen, x ≠ 0 := by
      refine ⟨0x45, ?_, by decide⟩
      obtain ⟨x, rest, rfl⟩ := List.exists_cons_of_length_pos
        (Nat.lt_of_lt_of_le (by decide : 0 < ipHlen) (Nat.le_trans hle.1 hle.2))
      have hx : x = 0x45 := hv
      rw [hx]
      exact List.mem_cons_self
    have hsum := inetChksum_eq (by rw [hhead]; decide) hmem
    rw [not_not.mp hchk] at hsum
    exact neg_eq_zero.mp ((ZMod.val_eq_zero _).mp hsum.symm)
  · split at h
    · cases h
    split at h
    · cases h
    split at h
    · cases h
    split at h
    · exact h
    · cases h

theorem ethernetInput_delivered
    (h : (ethernetInput n pcbs p beyond).2 = .delivered r ys addr port) :
    (ip4Input n pcbs (p.drop sizeofEthHdr) beyond).2 = .delivered r ys addr port := by
  unfold ethernetInput at h
  split at h
  · cases h
  split at h
  · exact h
  split at h <;> cases h

end Delivered

/-! ## One byte -/

section Changed

variable {d : Datagram} {n : Netif} {pcbs : List UdpPcb} {r : UdpPcb} {beyond ys : List UInt8}
  {addr : UInt32} {port : UInt16}

theorem udpInput_changed (hne : d.udp.chksum ≠ 0) {k : Nat} {b : UInt8}
    (h : (udpInput n pcbs d.ip.src d.ip.dest ((d.udp.bytes ++ d.payload).set k b)).2 =
      .delivered r ys addr port) :
    ys = d.payload ∧ addr = d.ip.src ∧ port = lwipHtons d.udp.src := by
  have hsize := d.size
  have hlen : ((d.udp.bytes ++ d.payload).set k b).length = d.payload.length + udpHlen := by
    rw [List.length_set, d.body_length]
  have hread : udpHdrAt (d.udp.bytes ++ d.payload) = d.udp := udpHdrAt_bytes d.udp d.payload
  have hdrop : (d.udp.bytes ++ d.payload).drop udpHlen = d.payload := by
    rw [← d.udp.bytes_length, List.drop_left]
  obtain ⟨hsum, rfl, rfl, rfl⟩ := udpInput_delivered h (by rw [hlen]; omega)
  by_cases hfield : k = 6 ∨ k = 7
  · have hk : k < udpHlen := by
      rw [udpHlen]
      omega
    have hsrc : (udpHdrAt ((d.udp.bytes ++ d.payload).set k b)).src = d.udp.src :=
      (get16_set b (by omega) (by omega)).trans (congrArg UdpHdr.src hread)
    rw [List.drop_set, if_pos hk, hdrop, hsrc]
    exact ⟨rfl, rfl, rfl⟩
  · have hchksum : (udpHdrAt ((d.udp.bytes ++ d.payload).set k b)).chksum = d.udp.chksum :=
      (get16_set b (by omega) (by omega)).trans (congrArg UdpHdr.chksum hread)
    have hsum := hsum (by rwa [hchksum])
    have hzero : udpSum d.ip d.udp d.payload = 0 := d.udpZero.resolve_left hne
    have hsame : octets ((d.udp.bytes ++ d.payload).set k b) =
        octets (d.udp.bytes ++ d.payload) := by
      rw [pseudoSum, hlen] at hsum
      rw [udpSum, pseudoSum] at hzero
      linear_combination hsum - hzero
    rw [octets_set hsame, hdrop, hread]
    exact ⟨rfl, rfl, rfl⟩

theorem ip4Input_changed (hne : d.udp.chksum ≠ 0) {j : Nat} (hj : j ≠ 0) {b : UInt8}
    {pad : List UInt8}
    (h : (ip4Input n pcbs ((d.packet ++ pad).set j b) beyond).2 = .delivered r ys addr port) :
    ys = d.payload ∧ addr = d.ip.src ∧ port = lwipHtons d.udp.src := by
  rw [Datagram.packet, List.append_assoc] at h
  have hv : (ipHdrAt ((d.ip.bytes ++ (d.udp.bytes ++ d.payload ++ pad)).set j b ++ beyond)).vHl =
      0x45 := by
    obtain ⟨j, rfl⟩ := Nat.exists_eq_succ_of_ne_zero hj
    exact d.vHl
  obtain ⟨hsum, hudp⟩ := ip4Input_delivered h hv
  have htake : (d.ip.bytes ++ (d.udp.bytes ++ d.payload ++ pad)).take ipHlen = d.ip.bytes := by
    rw [← d.ip.bytes_length, List.take_left]
  rw [List.take_set, htake, ← d.ipZero] at hsum
  have hhdr := octets_set hsum
  obtain ⟨k, hk⟩ : ∃ k, (d.ip.bytes ++ (d.udp.bytes ++ d.payload ++ pad)).set j b =
      d.ip.bytes ++ (d.udp.bytes ++ d.payload ++ pad).set k b := by
    rw [List.set_append]
    split
    · exact ⟨_, by rw [hhdr, List.set_eq_of_length_le (Nat.le_refl _)]⟩
    · exact ⟨_, rfl⟩
  have hlenWord : (lwipHtons d.ip.len).toNat =
      d.ip.bytes.length + (d.udp.bytes ++ d.payload).length := by
    rw [d.len, lwipHtons_lwipHtons, UInt16.toNat_ofNat_of_lt' d.size, d.body_length,
      IpHdr.bytes_length, Nat.add_comm]
  rw [hk, List.append_assoc, ipHdrAt_bytes, hlenWord, List.take_length_add_append,
    ← d.ip.bytes_length, List.drop_left, List.take_set, List.take_left] at hudp
  exact udpInput_changed hne hudp

end Changed

/-- **A changed byte**: whatever a station passes on from a frame of which any byte but one was
changed is what was sent, from where it was sent. -/
theorem byte_changed {n m : Netif} {env : SendEnv} {pcb pcb' r : UdpPcb} {pcbs : List UdpPcb}
    {p q f : Packet} {dstIp ip addr : UInt32} {dstPort ipId port : UInt16}
    (hsend : udpSendto n env pcb p dstIp dstPort = (pcb', ipId, .output q ip))
    {src dst : EthAddr} (hframe : ethernetOutput q src dst ethtypeIpWord = some f)
    (hchksum : pcb.noChksum = false) {i : Nat} (hi : i ≠ sizeofEthHdr) {b : UInt8}
    {pad beyond ys : List UInt8}
    (h : (ethernetInput m pcbs ((f.bytes ++ pad).set i b) beyond).2 = .delivered r ys addr port) :
    ys = p.bytes ∧ addr = n.ipAddr ∧ port = pcb'.localPort := by
  obtain ⟨-, d, hq, hpayload, hsrc, -, husrc, -, hne⟩ := udpSendto_packet hsend
  have hip := ethernetInput_delivered h
  have hdrop : (f.bytes ++ pad).drop sizeofEthHdr = d.packet ++ pad := by
    rw [(ethernetOutput_frame hframe).1, hq, List.append_assoc, ← EthHdr.bytes_length,
      List.drop_left]
  obtain ⟨j, hj, hset⟩ : ∃ j, j ≠ 0 ∧ ((f.bytes ++ pad).set i b).drop sizeofEthHdr =
      (d.packet ++ pad).set j b := by
    rw [List.drop_set, hdrop]
    split
    · exact ⟨_, Nat.succ_ne_zero _, (List.set_eq_of_length_le (Nat.le_succ _)).symm⟩
    · exact ⟨i - sizeofEthHdr, by omega, rfl⟩
  rw [hset] at hip
  rw [← hpayload, ← hsrc]
  obtain ⟨hys, haddr, hport⟩ := ip4Input_changed (hne hchksum) hj hip
  exact ⟨hys, haddr, by rw [hport, husrc, lwipHtons_lwipHtons]⟩

theorem byte_changed_address :
    ∃ ys addr port,
      (ethernetInput destNetif [dataSink] ((fourBytesFrame.bytes ++ []).set 0 1) []).2 =
        .delivered dataSink ys addr port ∧ ys = [1, 2, 3, 4] ∧ addr = 0x6700A8C0 := by
  have h : (ethernetInput destNetif [dataSink] ((fourBytesFrame.bytes ++ []).set 0 1) []).2 =
      .delivered dataSink [1, 2, 3, 4] 0x6700A8C0 49152 := by decide +kernel
  obtain ⟨hys, haddr, -⟩ := byte_changed fourBytes_sent fourBytes_frame rfl (by decide) h
  exact ⟨_, _, _, h, hys, haddr⟩

-- Five bytes from port 63278: as a header of 24 bytes it adds up to 0, too, and the checksum is
-- read as a port.
example :
    (ethernetInput destNetif [{ localPort := 30997, recv := true }]
      (List.set [2, 0, 0, 0, 0, 5, 0, 96, 55, 18, 52, 86, 8, 0, 69, 0, 0, 33, 0, 7, 0, 0, 255, 17,
        58, 8, 192, 168, 0, 103, 192, 168, 0, 5, 247, 46, 7, 209, 0, 13, 121, 21, 1, 2, 0, 0, 5]
        sizeofEthHdr 0x46) []).2 =
      .delivered { localPort := 30997, recv := true } [5] 0x6700A8C0 13 := by
  decide +kernel

end AdcUdpStream.Net
