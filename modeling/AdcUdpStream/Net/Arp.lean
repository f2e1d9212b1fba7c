import AdcUdpStream.Net.Ethernet

/-!
# The ARP table (`etharp.c`)

Ten entries, each for one address. A packet for an address without a stable entry waits
in a pending one, one packet for each address; a packet from the address makes its
entry stable and sends what waits. When there is no free slot, an old entry gives way.
-/

namespace AdcUdpStream.Net

open LittleEndian

/-! ## Messages -/

/-- `struct etharp_hdr`, its words in network byte order. -/
structure EtharpHdr where
  hwtype : UInt16
  proto : UInt16
  hwlen : UInt8
  protolen : UInt8
  opcode : UInt16
  shwaddr : EthAddr
  sipaddr : UInt32
  dhwaddr : EthAddr
  dipaddr : UInt32
  deriving DecidableEq

def EtharpHdr.bytes (h : EtharpHdr) : List UInt8 :=
  put16 h.hwtype ++ put16 h.proto ++ [h.hwlen, h.protolen] ++ put16 h.opcode ++
    h.shwaddr.toList ++ put32 h.sipaddr ++ h.dhwaddr.toList ++ put32 h.dipaddr

def ethAddrAt (m : List UInt8) (i : Nat) : EthAddr := Vector.ofFn fun j => m.getD (i + j) 0

def etharpHdrAt (m : List UInt8) : EtharpHdr where
  hwtype := get16 m 0
  proto := get16 m 2
  hwlen := m.getD 4 0
  protolen := m.getD 5 0
  opcode := get16 m 6
  shwaddr := ethAddrAt m 8
  sipaddr := get32 m 14
  dhwaddr := ethAddrAt m 18
  dipaddr := get32 m 24

def ethzero : EthAddr := #v[0, 0, 0, 0, 0, 0]

def arpRequest : UInt16 := 1
def arpReply : UInt16 := 2

/-- What is handed to `ethernet_output`: an ARP message, a packet for an address of the table, or a
packet to a group of stations. -/
inductive Emit where
  | arp (h : EtharpHdr) (dst : EthAddr)
  | ip (addr : UInt32) (q : Packet) (dst : EthAddr)
  | group (q : Packet) (dst : EthAddr)
  deriving DecidableEq

/-- The frame, which reaches the driver unless the header does not fit. -/
def Emit.frame (n : Netif) : Emit → Option Packet
  | .arp h dst => ethernetOutput { room := 16, pbufs := [h.bytes] } n.hwaddr dst ethtypeArpWord
  | .ip _ q dst => ethernetOutput q n.hwaddr dst ethtypeIpWord
  | .group q dst => ethernetOutput q n.hwaddr dst ethtypeIpWord

/-- What `etharp_raw` writes: the sender is always the interface. -/
def arpMessage (n : Netif) (opcode : UInt16) (hwdst : EthAddr) (ipdst : UInt32) : EtharpHdr where
  hwtype := lwipHtons 1
  proto := lwipHtons ethtypeIpWord
  hwlen := 6
  protolen := 4
  opcode := lwipHtons opcode
  shwaddr := n.hwaddr
  sipaddr := n.ipAddr
  dhwaddr := hwdst
  dipaddr := ipdst

/-- `alloc` is whether `pbuf_alloc` finds memory. -/
def etharpRaw (n : Netif) (alloc : Bool) (ethdst hwdst : EthAddr) (ipdst : UInt32)
    (opcode : UInt16) : List Emit :=
  if alloc then [.arp (arpMessage n opcode hwdst ipdst) ethdst] else []

def etharpRequestDst (n : Netif) (alloc : Bool) (ipaddr : UInt32) (hwDst : EthAddr) : List Emit :=
  etharpRaw n alloc hwDst ethzero ipaddr arpRequest

def etharpRequest (n : Netif) (alloc : Bool) (ipaddr : UInt32) : List Emit :=
  etharpRequestDst n alloc ipaddr ethbroadcast

/-! ## The table -/

def arpTableSize : Nat := 10

/-- In seconds, as `etharp_tmr` counts them. -/
def arpMaxage : Nat := 300
def arpMaxpending : Nat := 5
def arpAgeRerequestUsedUnicast : Nat := arpMaxage - 30
def arpAgeRerequestUsedBroadcast : Nat := arpMaxage - 15

inductive EtharpState where
  | empty
  | pending
  | stable
  | stableRerequesting1
  | stableRerequesting2
  deriving DecidableEq

/-- `state >= ETHARP_STATE_STABLE`. -/
def EtharpState.AtLeastStable (s : EtharpState) : Prop := s ≠ .empty ∧ s ≠ .pending

instance (s : EtharpState) : Decidable s.AtLeastStable := inferInstanceAs (Decidable (_ ∧ _))

/-- `struct etharp_entry`, for the one interface. -/
structure EtharpEntry where
  q : Option Packet := none
  ipaddr : UInt32 := 0
  ethaddr : EthAddr := ethzero
  ctime : Nat := 0
  state : EtharpState := .empty

abbrev ArpTable := Fin arpTableSize → EtharpEntry

structure Etharp where
  arpTable : ArpTable := fun _ => {}
  etharpCachedEntry : Fin arpTableSize := ⟨0, Nat.succ_pos 9⟩

def etharpFreeEntry (e : EtharpEntry) : EtharpEntry := { e with q := none, state := .empty }

/-- What `etharp_find_entry` remembers on its sweep: slots to take, and their ages. -/
structure Sweep where
  empty : Option (Fin arpTableSize) := none
  oldStable : Option (Fin arpTableSize) := none
  oldPending : Option (Fin arpTableSize) := none
  oldQueue : Option (Fin arpTableSize) := none
  ageStable : Nat := 0
  agePending : Nat := 0
  ageQueue : Nat := 0

/-- An entry that does not match. -/
def Sweep.candidate (s : Sweep) (i : Fin arpTableSize) (e : EtharpEntry) : Sweep :=
  match e.state with
  | .empty => if s.empty = none then { s with empty := some i } else s
  | .pending =>
    if e.q ≠ none then
      if s.ageQueue ≤ e.ctime then { s with oldQueue := some i, ageQueue := e.ctime } else s
    else if s.agePending ≤ e.ctime then { s with oldPending := some i, agePending := e.ctime }
    else s
  | _ => if s.ageStable ≤ e.ctime then { s with oldStable := some i, ageStable := e.ctime } else s

/-- The loop of `etharp_find_entry`: the entry that matches, or what was remembered. -/
def sweep (t : ArpTable) (ipaddr : UInt32) :
    Sweep → List (Fin arpTableSize) → Fin arpTableSize ⊕ Sweep
  | s, [] => .inr s
  | s, i :: is =>
    if (t i).state ≠ .empty ∧ (t i).ipaddr = ipaddr then .inl i
    else sweep t ipaddr (s.candidate i (t i)) is

/-- `ETHARP_FLAG_TRY_HARD` and `ETHARP_FLAG_FIND_ONLY`. -/
inductive EtharpFlag where
  | tryHard
  | findOnly
  deriving DecidableEq

/-- The slot to recycle, the least destructive one. -/
def Sweep.recycled (s : Sweep) : Option (Fin arpTableSize) :=
  s.oldStable.or (s.oldPending.or s.oldQueue)

def etharpFindEntry (t : ArpTable) (ipaddr : UInt32) (flags : EtharpFlag) :
    ArpTable × Option (Fin arpTableSize) :=
  match sweep t ipaddr {} (List.finRange arpTableSize) with
  | .inl i => (t, some i)
  | .inr s =>
    match flags with
    | .findOnly => (t, none)
    | .tryHard =>
      match s.empty with
      | some i => (Function.update t i { t i with ipaddr, ctime := 0 }, some i)
      | none =>
        match s.recycled with
        | some i =>
          (Function.update t i { etharpFreeEntry (t i) with ipaddr, ctime := 0 }, some i)
        | none => (t, none)

/-! ## The functions -/

/-- What is not added to the table. -/
def NonUnicast (n : Netif) (ipaddr : UInt32) : Prop :=
  ipaddr = 0 ∨ ip4AddrIsbroadcast ipaddr n = true ∨ ip4AddrIsmulticast ipaddr = true

instance (n : Netif) (ipaddr : UInt32) : Decidable (NonUnicast n ipaddr) :=
  inferInstanceAs (Decidable (_ ∨ _))

def etharpUpdateArpEntry (n : Netif) (t : ArpTable) (ipaddr : UInt32) (ethaddr : EthAddr)
    (flags : EtharpFlag) : ArpTable × List Emit :=
  if NonUnicast n ipaddr then (t, [])
  else
    match etharpFindEntry t ipaddr flags with
    | (t, none) => (t, [])
    | (t, some i) =>
      (Function.update t i { t i with state := .stable, ethaddr, ctime := 0, q := none },
        (t i).q.toList.map fun p => .ip ipaddr p ethaddr)

/-- The packet that is queued: itself, or its clone when a pbuf of it must be copied. -/
def takenOver (q : Packet) : Option Bool → Option Packet
  | none => some q
  | some memory => if memory then some { room := 16, pbufs := [q.bytes] } else none

/-- `copied` when a pbuf must be copied, with whether there is memory for it. -/
def etharpQuery (n : Netif) (alloc : Bool) (copied : Option Bool) (a : Etharp) (ipaddr : UInt32)
    (q : Packet) : Etharp × List Emit :=
  if NonUnicast n ipaddr then (a, [])
  else
    match etharpFindEntry a.arpTable ipaddr .tryHard with
    | (t, none) => ({ a with arpTable := t }, [])
    | (t, some i) =>
      let isNewEntry := (t i).state = .empty
      let t := if isNewEntry then Function.update t i { t i with state := .pending } else t
      let requests := if isNewEntry then etharpRequest n alloc ipaddr else []
      if (t i).state.AtLeastStable then
        ({ arpTable := t, etharpCachedEntry := i }, requests ++ [.ip ipaddr q (t i).ethaddr])
      else
        match takenOver q copied with
        | some p =>
          ({ a with arpTable := Function.update t i { t i with q := some p } }, requests)
        | none => ({ a with arpTable := t }, requests)

/-- `etharp_output_to_arp_index`: an entry about to expire is requested again. -/
def etharpOutputToArpIndex (n : Netif) (alloc : Bool) (a : Etharp) (q : Packet)
    (i : Fin arpTableSize) : Etharp × List Emit :=
  let e := a.arpTable i
  let requests :=
    if e.state = .stable then
      if arpAgeRerequestUsedBroadcast ≤ e.ctime then etharpRequest n alloc e.ipaddr
      else if arpAgeRerequestUsedUnicast ≤ e.ctime then
        etharpRequestDst n alloc e.ipaddr e.ethaddr
      else []
    else []
  ({ a with arpTable :=
      if requests = [] then a.arpTable
      else Function.update a.arpTable i { e with state := .stableRerequesting1 } },
    requests ++ [.ip e.ipaddr q e.ethaddr])

/-- The station a packet is sent to: itself, or the gateway. -/
def etharpDstAddr (n : Netif) (ipaddr : UInt32) : Option UInt32 :=
  if !ip4AddrNetEq ipaddr n.ipAddr n.netmask && !ip4AddrIslinklocal ipaddr then
    if n.gw ≠ 0 then some n.gw else none
  else some ipaddr

def EtharpEntry.StableFor (e : EtharpEntry) (ipaddr : UInt32) : Prop :=
  e.state.AtLeastStable ∧ ipaddr = e.ipaddr

instance (e : EtharpEntry) (ipaddr : UInt32) : Decidable (e.StableFor ipaddr) :=
  inferInstanceAs (Decidable (_ ∧ _))

def etharpOutput (n : Netif) (alloc : Bool) (copied : Option Bool) (a : Etharp) (q : Packet)
    (ipaddr : UInt32) : Etharp × List Emit :=
  if ip4AddrIsbroadcast ipaddr n then (a, [.group q ethbroadcast])
  else if ip4AddrIsmulticast ipaddr then
    (a, [.group q #v[0x01, 0x00, 0x5E, (ipaddr >>> 8).toUInt8 &&& 0x7F, (ipaddr >>> 16).toUInt8,
      (ipaddr >>> 24).toUInt8]])
  else
    match etharpDstAddr n ipaddr with
    | none => (a, [])
    | some dstAddr =>
      if (a.arpTable a.etharpCachedEntry).StableFor dstAddr then
        etharpOutputToArpIndex n alloc a q a.etharpCachedEntry
      else
        match (List.finRange arpTableSize).find? fun i => (a.arpTable i).StableFor dstAddr with
        | some i => etharpOutputToArpIndex n alloc { a with etharpCachedEntry := i } q i
        | none => etharpQuery n alloc copied a dstAddr q

/-- `linkUp` is `NETIF_FLAG_LINK_UP` at the call. -/
def lpcEtharpOutput (n : Netif) (linkUp alloc : Bool) (copied : Option Bool) (a : Etharp)
    (q : Packet) (ipaddr : UInt32) : Etharp × List Emit :=
  if linkUp then etharpOutput n alloc copied a q ipaddr else (a, [])

def EtharpHdr.Ok (h : EtharpHdr) : Prop :=
  h.hwtype = lwipHtons 1 ∧ h.hwlen = 6 ∧ h.protolen = 4 ∧ h.proto = lwipHtons ethtypeIpWord

instance (h : EtharpHdr) : Decidable h.Ok := inferInstanceAs (Decidable (_ ∧ _))

/-- `for_us`, on an interface that is configured. -/
def EtharpHdr.forUs (n : Netif) (h : EtharpHdr) : Bool := n.ipAddr ≠ 0 && h.dipaddr = n.ipAddr

def EtharpHdr.fromUs (n : Netif) (h : EtharpHdr) : Bool := n.ipAddr ≠ 0 && h.sipaddr = n.ipAddr

/-- `beyond` is what lies in memory behind a packet that is too short. -/
def etharpInput (n : Netif) (alloc : Bool) (a : Etharp) (p beyond : List UInt8) :
    Etharp × List Emit :=
  let h := etharpHdrAt (p ++ beyond)
  if h.Ok then
    let r := etharpUpdateArpEntry n a.arpTable h.sipaddr h.shwaddr
      (if h.forUs n then .tryHard else .findOnly)
    ({ a with arpTable := r.1 },
      r.2 ++
        if h.opcode = lwipHtons arpRequest ∧ h.forUs n = true ∧ h.fromUs n = false then
          etharpRaw n alloc h.shwaddr h.shwaddr h.sipaddr arpReply
        else [])
  else (a, [])

/-- One entry in `etharp_tmr`, and whether it is requested again. -/
def tmrEntry (e : EtharpEntry) : EtharpEntry × Bool :=
  if e.state = .empty then (e, false)
  else
    let e := { e with ctime := e.ctime + 1 }
    if arpMaxage ≤ e.ctime ∨ e.state = .pending ∧ arpMaxpending ≤ e.ctime then
      (etharpFreeEntry e, false)
    else
      match e.state with
      | .stableRerequesting1 => ({ e with state := .stableRerequesting2 }, false)
      | .stableRerequesting2 => ({ e with state := .stable }, false)
      | .pending => (e, true)
      | _ => (e, false)

def etharpTmr (n : Netif) (alloc : Fin arpTableSize → Bool) (a : Etharp) : Etharp × List Emit :=
  ({ a with arpTable := fun i => (tmrEntry (a.arpTable i)).1 },
    (List.finRange arpTableSize).flatMap fun i =>
      if (tmrEntry (a.arpTable i)).2 then etharpRequest n (alloc i) (a.arpTable i).ipaddr else [])

/-- What calls the table: a packet to send, a message that came in, and the timer. The link may be
up or down, and memory may be short, at each. -/
inductive ArpEvent where
  | output (linkUp alloc : Bool) (copied : Option Bool) (q : Packet) (ipaddr : UInt32)
  | input (alloc : Bool) (p beyond : List UInt8)
  | tmr (alloc : Fin arpTableSize → Bool)

def arpStep (n : Netif) (a : Etharp) : ArpEvent → Etharp × List Emit
  | .output linkUp alloc copied q ipaddr =>
    lpcEtharpOutput n linkUp alloc copied a q ipaddr
  | .input alloc p beyond => etharpInput n alloc a p beyond
  | .tmr alloc => etharpTmr n alloc a

end AdcUdpStream.Net
