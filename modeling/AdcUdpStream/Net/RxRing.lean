import AdcUdpStream.Lib.Ring
import AdcUdpStream.Lib.Steps

/-!
# The receive ring (`lpc17xx_40xx_emac.c`)

Every descriptor holds a pbuf of 1536 bytes; the Ethernet DMA fills them at the
produce index, and the main loop calls `lpc_enetif_input`, which takes one frame
at the consume index and queues a new pbuf behind the others. What `pbuf_alloc`
and `netif->input` answer comes with the call. The DMA works between two calls:
during a call it writes to descriptors the call does not touch.

A ring that was set up with at most one pbuf missing behaves as a queue of three
frames (`rx_refines`): frames are passed on in order, and what is lost is what
`RxQueue` loses.
-/

namespace AdcUdpStream.Net

open Ring Steps

def lpcNumBuffRxdescs : Nat := 4
def enetEthMaxFlen : Nat := 1536

/-! ## The data -/

/-- A pbuf, by name, with its `len`. -/
structure RxPbuf where
  id : Nat
  len : Nat
  deriving DecidableEq

/-- `ENET_RCTRL_SIZE(n)`, for a `u16_t`. -/
def enetRctrlSize (n : Nat) : Nat := if n = 0 then 0x7FF else (n - 1) % 0x800

/-- `ENET_RINFO_SIZE(n)`. -/
def enetRinfoSize (info : UInt32) : Nat := (info &&& 0x7FF).toNat + 1

/-- `CRC_ERR | SYM_ERR | ALIGN_ERR | LEN_ERR`. -/
def enetRinfoErrors : UInt32 := 0x0B800000

/-- `Packet`, as the pbuf whose payload it points to, and the size in `Control`. -/
structure RxDesc where
  packet : Nat
  size : Nat
  deriving DecidableEq

/-- What `lpc_rxqueue_pbuf` makes of a pbuf. -/
def RxPbuf.desc (p : RxPbuf) : RxDesc := ⟨p.id, enetRctrlSize p.len⟩

/-- The receive part of `lpc_enetdata_t`, the two index registers and the overrun bit of the
interrupt status; the payloads of the pbufs, and where the pbufs went: `allocated` counts them,
`freed` and `passed` (to the stack) list them. -/
structure Rx where
  prxd : Nat → RxDesc := fun _ => ⟨0, 0⟩
  prxs : Nat → UInt32 := fun _ => 0
  rxb : Nat → Option RxPbuf := fun _ => none
  rxFillDescIndex : Nat := 0
  rxFreeDescs : Nat := 0
  produceIndex : Nat := 0
  consumeIndex : Nat := 0
  rxOverrun : Bool := false
  payload : Nat → List UInt8 := fun _ => []
  allocated : Nat := 0
  freed : List Nat := []
  passed : List Nat := []

/-! ## The functions -/

def lpcRxqueuePbuf (s : Rx) (p : RxPbuf) : Rx :=
  { s with
    prxd := Function.update s.prxd s.rxFillDescIndex p.desc
    prxs := Function.update s.prxs s.rxFillDescIndex 0xFFFFFFFF
    rxb := Function.update s.rxb s.rxFillDescIndex (some p)
    rxFreeDescs := s.rxFreeDescs - 1
    rxFillDescIndex := next lpcNumBuffRxdescs s.rxFillDescIndex }

/-- `lpc_rx_queue` where `pbuf_alloc` succeeds `avail` times at most; returns the number queued. -/
def lpcRxQueue : Nat → Rx → Rx × Nat
  | 0, s => (s, 0)
  | avail + 1, s =>
    if s.rxFreeDescs > 0 then
      let r := lpcRxQueue avail
        (lpcRxqueuePbuf { s with allocated := s.allocated + 1 } ⟨s.allocated, enetEthMaxFlen⟩)
      (r.1, r.2 + 1)
    else (s, 0)

def lpcRxSetup (avail : Nat) (s : Rx) : Rx :=
  (lpcRxQueue avail
    { s with consumeIndex := 0, rxFreeDescs := lpcNumBuffRxdescs, rxFillDescIndex := 0 }).1

/-- The outcome of `lpc_low_level_input`: `noMemory p` queues `p` again, `fault` is an access
through a null pointer. -/
inductive LowLevel where
  | nothing
  | reset
  | dropped
  | noMemory (p : RxPbuf)
  | packet (p : RxPbuf)
  | fault

/-- The reset on an overrun. The hardware starts again at descriptor 0. -/
def rxReset (avail : Nat) (s : Rx) : Rx :=
  lpcRxSetup avail { s with
    rxOverrun := false
    produceIndex := 0
    freed := s.freed ++
      (List.range lpcNumBuffRxdescs).filterMap fun i => (s.rxb i).map RxPbuf.id
    rxb := fun _ => none }

/-- `p = rxb[idx]; rxb[idx] = NULL; rx_free_descs++`. -/
def rxTake (s : Rx) : Rx :=
  { s with
    rxb := Function.update s.rxb s.consumeIndex none
    rxFreeDescs := s.rxFreeDescs + 1 }

def incRxConsumeIndex (s : Rx) : Rx :=
  { s with consumeIndex := next lpcNumBuffRxdescs s.consumeIndex }

/-- `length = ENET_RINFO_SIZE(..) - 4`, stored in a `u16_t`. -/
def rxLength (info : UInt32) : Nat := (enetRinfoSize info + 0xFFFC) % 0x10000

def lpcLowLevelInput (avail : Nat) (s : Rx) : Rx × LowLevel :=
  if s.rxOverrun then (rxReset avail s, .reset)
  else if s.consumeIndex = s.produceIndex then (s, .nothing)
  else
    match s.rxb s.consumeIndex with
    | none => (s, .fault)
    | some p =>
      let info := s.prxs s.consumeIndex
      if info &&& enetRinfoErrors ≠ 0 then
        (incRxConsumeIndex (lpcRxqueuePbuf (rxTake s) p), .dropped)
      else
        let p := { p with len := rxLength info }
        let r := lpcRxQueue avail (rxTake s)
        if r.2 = 0 then (incRxConsumeIndex (lpcRxqueuePbuf r.1 p), .noMemory p)
        else (incRxConsumeIndex r.1, .packet p)

def ethtypeIp : Nat := 0x0800
def ethtypeArp : Nat := 0x0806

/-- `htons(ethhdr->type)`. -/
def ethType (frame : List UInt8) : Nat := (frame.getD 12 0).toNat * 0x100 + (frame.getD 13 0).toNat

/-! ## Steps -/

/-- `dma`: a frame arrives, or a fragment of one; `frame` is what the buffer holds then, with what
lies behind the bytes that were stored. `overrun`: the DMA sets the overrun bit. `input`:
`lpc_enetif_input`, `accepts` when `netif->input` returns `ERR_OK`. -/
inductive RxEvent where
  | dma (info : UInt32) (frame : List UInt8)
  | overrun
  | input (avail : Nat) (accepts : Bool)

/-- What became of a frame: `passed` to the stack, or the pbuf freed because the stack `refused`
it. -/
inductive RxOut where
  | nothing
  | stored
  | full
  | reset
  | dropped
  | noMemory (len : Nat)
  | passed (len : Nat) (frame : List UInt8)
  | refused (len : Nat) (frame : List UInt8)
  | fault
  deriving DecidableEq

def lpcEnetifInput (avail : Nat) (accepts : Bool) (s : Rx) : Rx × RxOut :=
  match lpcLowLevelInput avail s with
  | (s', .nothing) => (s', .nothing)
  | (s', .reset) => (s', .reset)
  | (s', .dropped) => (s', .dropped)
  | (s', .noMemory p) => (s', .noMemory p.len)
  | (s', .fault) => (s', .fault)
  | (s', .packet p) =>
    let frame := s'.payload p.id
    if (ethType frame = ethtypeIp ∨ ethType frame = ethtypeArp) ∧ accepts then
      ({ s' with passed := s'.passed ++ [p.id] }, .passed p.len frame)
    else ({ s' with freed := s'.freed ++ [p.id] }, .refused p.len frame)

/-- The DMA leaves the descriptor before the consume index empty. -/
def rxDma (s : Rx) (info : UInt32) (frame : List UInt8) : Rx :=
  { s with
    prxs := Function.update s.prxs s.produceIndex info
    payload := Function.update s.payload (s.prxd s.produceIndex).packet frame
    produceIndex := next lpcNumBuffRxdescs s.produceIndex }

def rxStep (s : Rx) : RxEvent → Rx × RxOut
  | .dma info frame =>
    if next lpcNumBuffRxdescs s.produceIndex = s.consumeIndex then (s, .full)
    else (rxDma s info frame, .stored)
  | .overrun => ({ s with rxOverrun := true }, .nothing)
  | .input avail accepts => lpcEnetifInput avail accepts s

/-! ## A queue of frames -/

/-- What the ring is for. -/
structure RxQueue where
  waiting : List (UInt32 × List UInt8) := []
  rxOverrun : Bool := false

def frameOut (avail : Nat) (accepts : Bool) (info : UInt32) (frame : List UInt8) : RxOut :=
  if info &&& enetRinfoErrors ≠ 0 then .dropped
  else if avail = 0 then .noMemory (rxLength info)
  else if (ethType frame = ethtypeIp ∨ ethType frame = ethtypeArp) ∧ accepts then
    .passed (rxLength info) frame
  else .refused (rxLength info) frame

def queueStep (q : RxQueue) : RxEvent → RxQueue × RxOut
  | .dma info frame =>
    if q.waiting.length + 1 < lpcNumBuffRxdescs then
      ({ q with waiting := q.waiting ++ [(info, frame)] }, .stored)
    else (q, .full)
  | .overrun => ({ q with rxOverrun := true }, .nothing)
  | .input avail accepts =>
    if q.rxOverrun then ({}, .reset)
    else
      match q.waiting with
      | [] => (q, .nothing)
      | f :: rest => ({ q with waiting := rest }, frameOut avail accepts f.1 f.2)

/-! ## The pbufs in the ring -/

theorem rxDescs_pos : 0 < lpcNumBuffRxdescs := by decide

/-- The descriptors from `h` on hold the pbufs `L`, and the others none. -/
structure Held (s : Rx) (h : Nat) (L : List RxPbuf) : Prop where
  bufs : window s.rxb lpcNumBuffRxdescs h L.length = L.map some
  descs : window s.prxd lpcNumBuffRxdescs h L.length = L.map RxPbuf.desc
  fill : s.rxFillDescIndex = slot lpcNumBuffRxdescs h L.length
  free : s.rxFreeDescs + L.length = lpcNumBuffRxdescs
  empty : ∀ i, L.length ≤ i → i < lpcNumBuffRxdescs → s.rxb (slot lpcNumBuffRxdescs h i) = none

/-- Nothing but descriptors, statuses, `rxb` and the counts of a ring has changed. -/
structure SameRest (s s' : Rx) : Prop where
  produceIndex : s'.produceIndex = s.produceIndex
  consumeIndex : s'.consumeIndex = s.consumeIndex
  rxOverrun : s'.rxOverrun = s.rxOverrun
  payload : s'.payload = s.payload
  freed : s'.freed = s.freed
  passed : s'.passed = s.passed

def fresh (a k : Nat) : List RxPbuf := (List.range k).map fun i => ⟨a + i, enetEthMaxFlen⟩

theorem fresh_succ (a k : Nat) : fresh a (k + 1) = ⟨a, enetEthMaxFlen⟩ :: fresh (a + 1) k := by
  simp [fresh, List.range_succ_eq_map, Function.comp_def, Nat.add_assoc, Nat.add_comm 1]

@[simp] theorem fresh_length (a k : Nat) : (fresh a k).length = k := by simp [fresh]

theorem fresh_ids (a k : Nat) : (fresh a k).map RxPbuf.id = List.range' a k := by
  rw [fresh, List.map_map, List.range'_eq_map_range]
  rfl

section Queue

variable {s : Rx} {h : Nat} {L : List RxPbuf}

theorem Held.push (hs : Held s h L) (hlen : L.length < lpcNumBuffRxdescs) (p : RxPbuf) :
    Held (lpcRxqueuePbuf s p) h (L ++ [p]) := by
  obtain ⟨hbufs, hdescs, hfill, hfree, hempty⟩ := hs
  have hl : (L ++ [p]).length = L.length + 1 := by simp
  refine ⟨?_, ?_, ?_, ?_, fun i hi hin => ?_⟩
  · rw [hl, List.map_append, ← hbufs, lpcRxqueuePbuf, hfill]
    exact window_push hlen _
  · rw [hl, List.map_append, ← hdescs, lpcRxqueuePbuf, hfill]
    exact window_push hlen _
  · rw [hl, lpcRxqueuePbuf, hfill]
    exact next_slot rxDescs_pos
  · rw [hl]
    show s.rxFreeDescs - 1 + (L.length + 1) = _
    omega
  · rw [hl] at hi
    rw [lpcRxqueuePbuf, hfill]
    dsimp only
    rw [Function.update_of_ne]
    · exact hempty i (by omega) hin
    · intro he
      have := slot_inj hin hlen he
      omega

theorem push_prxs (hs : Held s h L) (hlen : L.length < lpcNumBuffRxdescs) (p : RxPbuf) :
    ∀ i < L.length, (lpcRxqueuePbuf s p).prxs (slot lpcNumBuffRxdescs h i) =
      s.prxs (slot lpcNumBuffRxdescs h i) := by
  intro i hi
  rw [lpcRxqueuePbuf, hs.fill]
  apply Function.update_of_ne
  intro he
  have := slot_inj (by omega) hlen he
  omega

theorem Held.take {p : RxPbuf} (hs : Held s s.consumeIndex (p :: L))
    (hc : s.consumeIndex < lpcNumBuffRxdescs) :
    s.rxb s.consumeIndex = some p ∧
      Held (rxTake s) (next lpcNumBuffRxdescs s.consumeIndex) L := by
  obtain ⟨hbufs, hdescs, hfill, hfree, hempty⟩ := hs
  rw [List.length_cons] at hbufs hdescs hfill hfree hempty
  rw [window_pop _ hc, List.map_cons] at hbufs hdescs
  -- seen from the next slot the emptied one is the last
  have hlast : s.consumeIndex = slot lpcNumBuffRxdescs
      (next lpcNumBuffRxdescs s.consumeIndex) (lpcNumBuffRxdescs - 1) := by
    rw [slot_next hc, Nat.sub_add_cancel rxDescs_pos, slot_self, slot_zero hc]
  refine ⟨(List.cons.inj hbufs).1, ?_, (List.cons.inj hdescs).2, ?_, ?_, fun i hi hin => ?_⟩
  · rw [← (List.cons.inj hbufs).2, rxTake]
    dsimp only
    nth_rewrite 1 [hlast]
    exact window_update_behind (by omega) (by have := rxDescs_pos; omega) none
  · rw [slot_next hc]
    exact hfill
  · show s.rxFreeDescs + 1 + L.length = _
    omega
  · rw [slot_next hc, rxTake]
    dsimp only
    by_cases he : slot lpcNumBuffRxdescs s.consumeIndex (i + 1) = s.consumeIndex
    · rw [he, Function.update_self]
    · rw [Function.update_of_ne he]
      refine hempty (i + 1) (by omega) (Nat.lt_of_le_of_ne hin fun heq => he ?_)
      rw [show i + 1 = lpcNumBuffRxdescs from heq, slot_self, slot_zero hc]

theorem SameRest.refl (s : Rx) : SameRest s s := ⟨rfl, rfl, rfl, rfl, rfl, rfl⟩

theorem SameRest.trans {s' s'' : Rx} (h : SameRest s s') (h' : SameRest s' s'') :
    SameRest s s'' :=
  ⟨h'.1.trans h.1, h'.2.trans h.2, h'.3.trans h.3, h'.4.trans h.4, h'.5.trans h.5, h'.6.trans h.6⟩

/-- **`lpc_rx_queue` fills the ring as far as there is memory.** -/
theorem lpcRxQueue_spec (hs : Held s h L) (avail : Nat) :
    (lpcRxQueue avail s).2 = min avail s.rxFreeDescs ∧
      Held (lpcRxQueue avail s).1 h (L ++ fresh s.allocated (lpcRxQueue avail s).2) ∧
      (lpcRxQueue avail s).1.allocated = s.allocated + (lpcRxQueue avail s).2 ∧
      (∀ i < L.length, (lpcRxQueue avail s).1.prxs (slot lpcNumBuffRxdescs h i) =
        s.prxs (slot lpcNumBuffRxdescs h i)) ∧
      SameRest s (lpcRxQueue avail s).1 := by
  induction avail generalizing s L with
  | zero =>
    refine ⟨(Nat.zero_min _).symm, ?_, rfl, fun _ _ => rfl, .refl s⟩
    rw [lpcRxQueue, fresh, List.range_zero, List.map_nil, List.append_nil]
    exact hs
  | succ avail ih =>
    by_cases hfree : s.rxFreeDescs > 0
    · have hlen : L.length < lpcNumBuffRxdescs := by
        have := hs.free
        omega
      -- the allocation itself touches no field of the ring
      have hs' : Held { s with allocated := s.allocated + 1 } h L :=
        ⟨hs.bufs, hs.descs, hs.fill, hs.free, hs.empty⟩
      have hpush := hs'.push hlen ⟨s.allocated, enetEthMaxFlen⟩
      obtain ⟨h1, h2, h3, h4, h5⟩ := ih hpush
      have hprxs := push_prxs hs' hlen ⟨s.allocated, enetEthMaxFlen⟩
      have hcount : (lpcRxqueuePbuf { s with allocated := s.allocated + 1 }
          ⟨s.allocated, enetEthMaxFlen⟩).rxFreeDescs = s.rxFreeDescs - 1 := rfl
      have halloc : (lpcRxqueuePbuf { s with allocated := s.allocated + 1 }
          ⟨s.allocated, enetEthMaxFlen⟩).allocated = s.allocated + 1 := rfl
      have hsame : SameRest s (lpcRxqueuePbuf { s with allocated := s.allocated + 1 }
          ⟨s.allocated, enetEthMaxFlen⟩) := ⟨rfl, rfl, rfl, rfl, rfl, rfl⟩
      rw [lpcRxQueue, if_pos hfree]
      dsimp only at hprxs ⊢
      generalize lpcRxqueuePbuf { s with allocated := s.allocated + 1 }
        ⟨s.allocated, enetEthMaxFlen⟩ = t at *
      refine ⟨by omega, ?_, by omega, fun i hi => ?_, hsame.trans h5⟩
      · rwa [halloc, List.append_assoc, List.singleton_append, ← fresh_succ] at h2
      · rw [h4 i (by rw [List.length_append]; omega), hprxs i hi]
    · rw [lpcRxQueue, if_neg hfree]
      refine ⟨?_, ?_, rfl, fun _ _ => rfl, .refl s⟩
      · omega
      · rw [fresh, List.range_zero, List.map_nil, List.append_nil]
        exact hs

end Queue

/-! ## The ring is a queue -/

/-- The ring holds the pbufs `L`, all but one at least, and the frames of `q` in the first of them.
Every pbuf that was allocated is held, freed or passed on. -/
structure RxInv (s : Rx) (q : RxQueue) (L : List RxPbuf) : Prop where
  produce : s.produceIndex < lpcNumBuffRxdescs
  consume : s.consumeIndex < lpcNumBuffRxdescs
  held : Held s s.consumeIndex L
  enough : lpcNumBuffRxdescs ≤ L.length + 1
  owned : (L.map RxPbuf.id ++ s.freed ++ s.passed).Perm (List.range s.allocated)
  overrun : s.rxOverrun = q.rxOverrun
  filled : fill lpcNumBuffRxdescs s.produceIndex s.consumeIndex = q.waiting.length
  infos : window s.prxs lpcNumBuffRxdescs s.consumeIndex q.waiting.length =
    q.waiting.map Prod.fst
  frames : (L.take q.waiting.length).map (fun p => s.payload p.id) = q.waiting.map Prod.snd

section Refinement

variable {s : Rx} {q : RxQueue} {L : List RxPbuf}

theorem RxInv.nodup (h : RxInv s q L) : (L.map RxPbuf.id).Nodup := by
  have := h.owned.nodup_iff.mpr List.nodup_range
  rw [List.append_assoc] at this
  exact this.of_append_left

theorem RxInv.waiting_lt (h : RxInv s q L) : q.waiting.length < lpcNumBuffRxdescs := by
  rw [← h.filled]
  exact fill_lt h.consume h.produce

theorem RxInv.produce_eq (h : RxInv s q L) :
    s.produceIndex = slot lpcNumBuffRxdescs s.consumeIndex q.waiting.length := by
  rw [← h.filled]
  exact (slot_fill h.consume h.produce).symm

theorem RxInv.full_iff (h : RxInv s q L) :
    next lpcNumBuffRxdescs s.produceIndex = s.consumeIndex ↔
      ¬ q.waiting.length + 1 < lpcNumBuffRxdescs := by
  have hlt := h.waiting_lt
  rw [h.produce_eq, next_slot rxDescs_pos]
  refine ⟨fun he hn => ?_, fun hn => ?_⟩
  · rw [← slot_zero h.consume, slot_slot, Nat.zero_add] at he
    have := slot_inj hn rxDescs_pos he
    omega
  · rw [show q.waiting.length + 1 = lpcNumBuffRxdescs by omega, slot_self, slot_zero h.consume]

theorem RxInv.produce_desc (h : RxInv s q L) (hroom : q.waiting.length + 1 < lpcNumBuffRxdescs) :
    ∃ p, L[q.waiting.length]? = some p ∧ s.rxb s.produceIndex = some p ∧
      s.prxd s.produceIndex = p.desc := by
  have henough := h.enough
  have hlt : q.waiting.length < L.length := by omega
  have hbuf := congrArg (fun l => l[q.waiting.length]?) h.held.bufs
  have hdesc := congrArg (fun l => l[q.waiting.length]?) h.held.descs
  simp only [window, List.getElem?_map, List.getElem?_range hlt,
    List.getElem?_eq_getElem hlt, Option.map_some, Option.some.injEq] at hbuf hdesc
  refine ⟨L[q.waiting.length], List.getElem?_eq_getElem hlt, ?_, ?_⟩
  · rw [h.produce_eq]
    exact hbuf
  · rw [h.produce_eq]
    exact hdesc

theorem RxInv.dma (h : RxInv s q L) (hroom : q.waiting.length + 1 < lpcNumBuffRxdescs)
    (info : UInt32) (frame : List UInt8) :
    RxInv (rxDma s info frame) { q with waiting := q.waiting ++ [(info, frame)] } L := by
  obtain ⟨p, hp, -, hdesc⟩ := h.produce_desc hroom
  have hlen : (q.waiting ++ [(info, frame)]).length = q.waiting.length + 1 := by simp
  have hpacket : (s.prxd s.produceIndex).packet = p.id := by rw [hdesc]; rfl
  obtain ⟨hlt, hget⟩ := List.getElem?_eq_some_iff.mp hp
  refine ⟨next_lt rxDescs_pos, h.consume, ⟨h.held.bufs, h.held.descs, h.held.fill, h.held.free,
    h.held.empty⟩, h.enough, h.owned, h.overrun, ?_, ?_, ?_⟩
  · show fill _ (next _ s.produceIndex) s.consumeIndex = _
    rw [h.produce_eq, next_slot rxDescs_pos, hlen, fill_slot h.consume hroom]
  · show window (Function.update s.prxs s.produceIndex info) _ s.consumeIndex _ = _
    rw [hlen, h.produce_eq, window_push h.waiting_lt, h.infos, List.map_append]
    rfl
  · show (L.take _).map (fun p => Function.update s.payload
      (s.prxd s.produceIndex).packet frame p.id) = _
    rw [hlen, hpacket, List.take_succ_eq_append_getElem hlt, List.map_append, List.map_append,
      ← h.frames, hget]
    congr 1
    · apply List.map_congr_left
      intro p' hp'
      apply Function.update_of_ne
      -- the pbufs of the frames before are others
      obtain ⟨i, hi, rfl⟩ := List.mem_take_iff_getElem.mp hp'
      intro he
      have hi' : i < (L.map RxPbuf.id).length := by
        rw [List.length_map]
        omega
      have hq' : q.waiting.length < (L.map RxPbuf.id).length := by
        rw [List.length_map]
        exact hlt
      have heq : (L.map RxPbuf.id)[i] = (L.map RxPbuf.id)[q.waiting.length] := by
        rw [List.getElem_map, List.getElem_map, he, hget]
      have hinj := h.nodup.getElem_inj_iff.mp heq
      omega
    · rw [List.map_singleton, List.map_singleton, Function.update_self]

theorem RxInv.first {f : UInt32 × List UInt8} {rest : List (UInt32 × List UInt8)}
    (h : RxInv s q L) (hq : q.waiting = f :: rest) :
    ∃ p L', L = p :: L' ∧ s.consumeIndex ≠ s.produceIndex ∧
      s.rxb s.consumeIndex = some p ∧ s.prxs s.consumeIndex = f.1 ∧ s.payload p.id = f.2 ∧
      Held (rxTake s) (next lpcNumBuffRxdescs s.consumeIndex) L' := by
  have henough := h.enough
  have hfilled := h.filled
  have hinfos := h.infos
  have hframes := h.frames
  have hlt := h.waiting_lt
  rw [hq, List.length_cons] at hfilled hinfos hframes hlt
  rcases hL : L with _ | ⟨p, L'⟩
  · rw [hL, List.length_nil] at henough
    omega
  · have hheld := h.held
    rw [hL] at hheld hframes
    obtain ⟨hbuf, htake⟩ := hheld.take h.consume
    refine ⟨p, L', rfl, fun he => ?_, hbuf, ?_, ?_, htake⟩
    · rw [he, fill_self] at hfilled
      omega
    · rw [window_pop _ h.consume, List.map_cons] at hinfos
      exact (List.cons.inj hinfos).1
    · rw [List.take_succ_cons, List.map_cons, List.map_cons] at hframes
      exact (List.cons.inj hframes).1

theorem RxInv.pop {f : UInt32 × List UInt8} {rest : List (UInt32 × List UInt8)} {p : RxPbuf}
    {L' X : List RxPbuf} {s' : Rx} (h : RxInv s q (p :: L')) (hq : q.waiting = f :: rest)
    (hp : s'.produceIndex = s.produceIndex)
    (hc : s'.consumeIndex = next lpcNumBuffRxdescs s.consumeIndex)
    (ho : s'.rxOverrun = s.rxOverrun) (hpay : s'.payload = s.payload)
    (hheld : Held s' s'.consumeIndex (L' ++ X)) (hX : X ≠ [])
    (hprxs : ∀ i < L'.length, s'.prxs (slot lpcNumBuffRxdescs s'.consumeIndex i) =
      s.prxs (slot lpcNumBuffRxdescs s'.consumeIndex i))
    (howned : ((L' ++ X).map RxPbuf.id ++ s'.freed ++ s'.passed).Perm (List.range s'.allocated)) :
    RxInv s' { q with waiting := rest } (L' ++ X) := by
  have henough := h.enough
  have hfilled := h.filled
  have hinfos := h.infos
  have hframes := h.frames
  have hlt := h.waiting_lt
  have hproduce := h.produce_eq
  have hpos := List.length_pos_iff.mpr hX
  rw [hq, List.length_cons] at hfilled hinfos hframes hlt hproduce
  rw [List.length_cons] at henough
  have hle : rest.length ≤ L'.length := by omega
  have hnext : s'.consumeIndex < lpcNumBuffRxdescs := by
    rw [hc]
    exact next_lt rxDescs_pos
  refine ⟨by rw [hp]; exact h.produce, hnext, hheld, by rw [List.length_append]; omega, howned,
    by rw [ho]; exact h.overrun, ?_, ?_, ?_⟩
  · rw [hp, hproduce, ← slot_next h.consume, ← hc]
    exact fill_slot hnext (by omega)
  · rw [window_pop _ h.consume, List.map_cons, ← hc] at hinfos
    rw [← (List.cons.inj hinfos).2]
    exact window_congr fun i hi => hprxs i (Nat.lt_of_lt_of_le hi hle)
  · rw [List.take_succ_cons, List.map_cons, List.map_cons] at hframes
    rw [hpay, List.take_append_of_le_length hle]
    exact (List.cons.inj hframes).2

/-- The pbuf of the first frame goes to the end, with whatever length. -/
theorem RxInv.requeue {f : UInt32 × List UInt8} {rest : List (UInt32 × List UInt8)}
    {p : RxPbuf} {L' : List RxPbuf} (h : RxInv s q (p :: L')) (hq : q.waiting = f :: rest)
    (htake : Held (rxTake s) (next lpcNumBuffRxdescs s.consumeIndex) L') (p' : RxPbuf)
    (hid : p'.id = p.id) :
    RxInv (incRxConsumeIndex (lpcRxqueuePbuf (rxTake s) p')) { q with waiting := rest }
      (L' ++ [p']) := by
  have hlen : L'.length < lpcNumBuffRxdescs := by
    have hfree : s.rxFreeDescs + 1 + L'.length = lpcNumBuffRxdescs := htake.free
    omega
  have hpush := htake.push hlen p'
  refine h.pop hq rfl rfl rfl rfl ⟨hpush.bufs, hpush.descs, hpush.fill, hpush.free, hpush.empty⟩
    (List.cons_ne_nil _ _) (push_prxs htake hlen p') ?_
  refine List.Perm.trans ?_ h.owned
  rw [List.map_append, List.map_singleton, List.map_cons, hid]
  exact ((List.perm_append_singleton _ _).append_right _).append_right _

theorem RxInv.deliver {f : UInt32 × List UInt8} {rest : List (UInt32 × List UInt8)}
    {p : RxPbuf} {L' : List RxPbuf} (h : RxInv s q (p :: L')) (hq : q.waiting = f :: rest)
    (htake : Held (rxTake s) (next lpcNumBuffRxdescs s.consumeIndex) L') {avail : Nat}
    (hk : (lpcRxQueue avail (rxTake s)).2 ≠ 0) (freed passed : List Nat)
    (hgone : (freed ++ passed).Perm (p.id :: (s.freed ++ s.passed))) :
    RxInv
      { incRxConsumeIndex (lpcRxQueue avail (rxTake s)).1 with freed := freed, passed := passed }
      { q with waiting := rest }
      (L' ++ fresh s.allocated (lpcRxQueue avail (rxTake s)).2) := by
  obtain ⟨-, hheld, halloc, hprxs, hsame⟩ := lpcRxQueue_spec htake avail
  refine h.pop hq hsame.produceIndex (congrArg (next _) hsame.consumeIndex) hsame.rxOverrun
    hsame.payload ?_ ?_ ?_ ?_
  · have hc : (incRxConsumeIndex (lpcRxQueue avail (rxTake s)).1).consumeIndex =
        next lpcNumBuffRxdescs s.consumeIndex := congrArg (next _) hsame.consumeIndex
    dsimp only
    rw [hc]
    exact ⟨hheld.bufs, hheld.descs, hheld.fill, hheld.free, hheld.empty⟩
  · intro hnil
    have := congrArg List.length hnil
    rw [fresh_length, List.length_nil] at this
    exact hk this
  · have hc : (incRxConsumeIndex (lpcRxQueue avail (rxTake s)).1).consumeIndex =
        next lpcNumBuffRxdescs s.consumeIndex := congrArg (next _) hsame.consumeIndex
    dsimp only
    rw [hc]
    exact hprxs
  · have halloc' : (incRxConsumeIndex (lpcRxQueue avail (rxTake s)).1).allocated =
        s.allocated + (lpcRxQueue avail (rxTake s)).2 := halloc
    have howned := h.owned
    dsimp only
    rw [List.map_cons] at howned
    rw [halloc', List.range_add, List.map_append, fresh_ids, List.range'_eq_map_range,
      List.append_assoc]
    rw [List.perm_iff_count] at howned hgone ⊢
    intro x
    have h1 := howned x
    have h2 := hgone x
    simp only [List.count_append, List.count_cons, List.cons_append] at h1 h2 ⊢
    omega

/-- **One call of `lpc_enetif_input`** is a step of the queue. -/
theorem RxInv.input (h : RxInv s q L) (hov : s.rxOverrun = false) (avail : Nat) (accepts : Bool) :
    (lpcEnetifInput avail accepts s).2 = (queueStep q (.input avail accepts)).2 ∧
      ∃ L', RxInv (lpcEnetifInput avail accepts s).1 (queueStep q (.input avail accepts)).1 L' := by
  obtain ⟨waiting, overrun⟩ := q
  obtain rfl : overrun = false := h.overrun.symm.trans hov
  cases waiting with
  | nil =>
    have he : s.consumeIndex = s.produceIndex := by
      have := h.produce_eq
      rw [List.length_nil, slot_zero h.consume] at this
      exact this.symm
    simp only [lpcEnetifInput, lpcLowLevelInput, queueStep, hov, he, Bool.false_eq_true,
      ↓reduceIte]
    exact ⟨trivial, L, h⟩
  | cons f rest =>
    obtain ⟨p, L', rfl, hne, hbuf, hinfo, hpay, htake⟩ := h.first rfl
    obtain ⟨hcount, -, -, -, hsame⟩ := lpcRxQueue_spec htake avail
    have hfree : (rxTake s).rxFreeDescs = s.rxFreeDescs + 1 := rfl
    simp only [lpcEnetifInput, lpcLowLevelInput, queueStep, frameOut, hov, hne, hbuf,
      hinfo, Bool.false_eq_true, ↓reduceIte]
    by_cases herr : f.1 &&& enetRinfoErrors ≠ 0
    · -- an erroneous frame
      simp only [if_pos herr]
      exact ⟨trivial, L' ++ [p], h.requeue rfl htake p rfl⟩
    · by_cases hav : avail = 0
      · -- a frame without memory for a new pbuf
        subst hav
        have hnone : lpcRxQueue 0 (rxTake s) = (rxTake s, 0) := rfl
        have hback := h.requeue rfl htake ⟨p.id, rxLength f.1⟩ rfl
        simp only [if_neg herr, hnone, ↓reduceIte]
        exact ⟨trivial, _, hback⟩
      · have hk : (lpcRxQueue avail (rxTake s)).2 ≠ 0 := by omega
        have hframe : (incRxConsumeIndex (lpcRxQueue avail (rxTake s)).1).payload p.id = f.2 := by
          rw [← hpay]
          exact congrFun hsame.payload p.id
        have hfreed : (incRxConsumeIndex (lpcRxQueue avail (rxTake s)).1).freed = s.freed :=
          hsame.freed
        have hpassed : (incRxConsumeIndex (lpcRxQueue avail (rxTake s)).1).passed = s.passed :=
          hsame.passed
        have hgood := h.deliver rfl htake hk
        simp only [if_neg herr, if_neg hav, if_neg hk, hframe]
        generalize incRxConsumeIndex (lpcRxQueue avail (rxTake s)).1 = t at *
        split
        · have hpass := hgood t.freed (t.passed ++ [p.id]) (by
            rw [hfreed, hpassed, ← List.append_assoc]
            exact List.perm_append_singleton _ _)
          exact ⟨rfl, _, hpass⟩
        · have hfree := hgood (t.freed ++ [p.id]) t.passed (by
            rw [hfreed, hpassed]
            exact (List.perm_append_singleton _ _).append_right _)
          exact ⟨rfl, _, hfree⟩

end Refinement

/-! ## Set-ups and runs -/

/-- An empty ring before `lpc_rx_setup`. -/
structure Rx.Bare (s : Rx) : Prop where
  produce : s.produceIndex = 0
  rxb : ∀ i, s.rxb i = none
  overrun : s.rxOverrun = false
  owned : (s.freed ++ s.passed).Perm (List.range s.allocated)

/-- **A set-up with at most one pbuf missing** is an empty queue. -/
theorem lpcRxSetup_inv {s : Rx} (hs : s.Bare) {avail : Nat}
    (havail : lpcNumBuffRxdescs ≤ avail + 1) :
    RxInv (lpcRxSetup avail s) {} (fresh s.allocated (min avail lpcNumBuffRxdescs)) := by
  obtain ⟨hp, hrxb, hov, howned⟩ := hs
  have h0 : Held { s with
      consumeIndex := 0, rxFreeDescs := lpcNumBuffRxdescs, rxFillDescIndex := 0 } 0 [] :=
    ⟨rfl, rfl, rfl, rfl, fun i _ _ => hrxb _⟩
  obtain ⟨hcount, hheld, halloc, -, hsame⟩ := lpcRxQueue_spec h0 avail
  rw [List.nil_append, hcount] at hheld
  rw [hcount] at halloc
  have hproduce : (lpcRxSetup avail s).produceIndex = 0 := hsame.produceIndex.trans hp
  have hconsume : (lpcRxSetup avail s).consumeIndex = 0 := hsame.consumeIndex
  refine ⟨by rw [hproduce]; exact rxDescs_pos, by rw [hconsume]; exact rxDescs_pos,
    by rw [hconsume]; exact hheld, by rw [fresh_length]; omega, ?_, hsame.rxOverrun.trans hov, ?_,
    rfl, ?_⟩
  · have hfreed : (lpcRxSetup avail s).freed = s.freed := hsame.freed
    have hpassed : (lpcRxSetup avail s).passed = s.passed := hsame.passed
    have halloc' : (lpcRxSetup avail s).allocated = s.allocated + min avail lpcNumBuffRxdescs :=
      halloc
    rw [hfreed, hpassed, halloc', List.range_add, fresh_ids, List.range'_eq_map_range,
      List.append_assoc]
    exact List.perm_append_comm.trans (howned.append_right _)
  · rw [hproduce, hconsume, fill_self]
    rfl
  · rfl

theorem Rx.bare_init : Rx.Bare {} := ⟨rfl, fun _ => rfl, rfl, List.Perm.refl _⟩

theorem Held.all {s : Rx} {h : Nat} {L : List RxPbuf} (hs : Held s h L) :
    ((List.range lpcNumBuffRxdescs).filterMap fun i => (s.rxb i).map RxPbuf.id).Perm
      (L.map RxPbuf.id) := by
  have hle : L.length ≤ lpcNumBuffRxdescs := by
    have := hs.free
    omega
  have hwin : window s.rxb lpcNumBuffRxdescs h lpcNumBuffRxdescs =
      L.map some ++ List.replicate (lpcNumBuffRxdescs - L.length) none := by
    nth_rewrite 2 [show lpcNumBuffRxdescs = L.length + (lpcNumBuffRxdescs - L.length) by omega]
    rw [window_add, hs.bufs]
    congr 1
    refine List.eq_replicate_iff.mpr ⟨window_length _, fun x hx => ?_⟩
    obtain ⟨i, hi, rfl⟩ := (mem_window _).mp hx
    rw [slot_slot]
    exact hs.empty _ (Nat.le_add_right ..) (by omega)
  have hperm := (window_perm s.rxb (h := h) rxDescs_pos).filterMap (Option.map RxPbuf.id)
  rw [hwin, List.filterMap_append, List.filterMap_map, List.filterMap_map] at hperm
  have hnone : (List.replicate (lpcNumBuffRxdescs - L.length) (none : Option RxPbuf)).filterMap
      (Option.map RxPbuf.id) = [] := by
    rw [List.filterMap_eq_nil_iff]
    intro x hx
    rw [(List.mem_replicate.mp hx).2]
    rfl
  have hsome : L.filterMap (Option.map RxPbuf.id ∘ some) = L.map RxPbuf.id :=
    congrFun (List.filterMap_eq_map (f := RxPbuf.id)) L
  rw [hnone, hsome, List.append_nil] at hperm
  exact hperm.symm

theorem RxInv.reset {s : Rx} {q : RxQueue} {L : List RxPbuf} (h : RxInv s q L) {avail : Nat}
    (havail : lpcNumBuffRxdescs ≤ avail + 1) :
    RxInv (rxReset avail s) {} (fresh s.allocated (min avail lpcNumBuffRxdescs)) := by
  refine lpcRxSetup_inv ⟨rfl, fun _ => rfl, rfl, ?_⟩ havail
  refine List.Perm.trans ?_ h.owned
  dsimp only
  refine List.Perm.append_right _ ?_
  exact (List.perm_append_comm).trans (h.held.all.append_right _)

/-- A call that resets the ring finds memory for three pbufs. -/
def Stocked (s : Rx) : RxEvent → Prop
  | .input avail _ => s.rxOverrun = true → lpcNumBuffRxdescs ≤ avail + 1
  | _ => True

/-- **Every step of the ring is one of the queue.** -/
theorem rx_step {s : Rx} {q : RxQueue} {L : List RxPbuf} {e : RxEvent} (h : RxInv s q L)
    (he : Stocked s e) :
    (rxStep s e).2 = (queueStep q e).2 ∧ ∃ L', RxInv (rxStep s e).1 (queueStep q e).1 L' := by
  cases e with
  | dma info frame =>
    by_cases hroom : q.waiting.length + 1 < lpcNumBuffRxdescs
    · have hne : ¬ next lpcNumBuffRxdescs s.produceIndex = s.consumeIndex :=
        fun he => h.full_iff.mp he hroom
      simp only [rxStep, queueStep, if_neg hne, if_pos hroom]
      exact ⟨trivial, L, h.dma hroom info frame⟩
    · simp only [rxStep, queueStep, if_pos (h.full_iff.mpr hroom), if_neg hroom]
      exact ⟨trivial, L, h⟩
  | overrun =>
    exact ⟨rfl, L, h.produce, h.consume, ⟨h.held.bufs, h.held.descs, h.held.fill, h.held.free,
      h.held.empty⟩, h.enough, h.owned, rfl, h.filled, h.infos, h.frames⟩
  | input avail accepts =>
    cases hov : s.rxOverrun with
    | false => exact h.input hov avail accepts
    | true =>
      have hq : q.rxOverrun = true := h.overrun.symm.trans hov
      simp only [rxStep, queueStep, lpcEnetifInput, lpcLowLevelInput, hov, hq, ↓reduceIte]
      exact ⟨trivial, _, h.reset (he hov)⟩

/-- **A run of the ring is one of the queue**, from any ring that keeps the invariant. -/
theorem RxInv.run {s : Rx} {q : RxQueue} {L : List RxPbuf} (h : RxInv s q L) {es : List RxEvent}
    (hes : Along rxStep Stocked s es) :
    outs rxStep s es = outs queueStep q es ∧
      ∃ L', RxInv (final rxStep s es) (final queueStep q es) L' := by
  have hstep : ∀ s q e, (∃ L, RxInv s q L) → Stocked s e →
      (rxStep s e).2 = (queueStep q e).2 ∧ ∃ L, RxInv (rxStep s e).1 (queueStep q e).1 L := by
    rintro s q e ⟨L, h⟩ he
    exact rx_step h he
  exact outs_sim_along hstep ⟨L, h⟩ hes

theorem setup_inv {avail : Nat} (havail : lpcNumBuffRxdescs ≤ avail + 1) :
    RxInv (lpcRxSetup avail {}) {} (fresh 0 (min avail lpcNumBuffRxdescs)) :=
  lpcRxSetup_inv Rx.bare_init havail

/-- **The receive ring is a queue of three frames.** After a set-up with at most one pbuf missing,
in every run whose resets find as much: every call answers what the queue answers, so frames are
passed on in order and none of a fault, a loss or a duplicate is the ring's own. -/
theorem rx_refines {avail : Nat} (havail : lpcNumBuffRxdescs ≤ avail + 1) {es : List RxEvent}
    (hes : Along rxStep Stocked (lpcRxSetup avail {}) es) :
    outs rxStep (lpcRxSetup avail {}) es = outs queueStep {} es :=
  ((setup_inv havail).run hes).1

theorem rx_refines_frame :
    outs rxStep (lpcRxSetup 3 {})
        [.dma 63 [0], .input 0 true, .input 1 true, .overrun, .input 4 true] =
      outs queueStep {} [.dma 63 [0], .input 0 true, .input 1 true, .overrun, .input 4 true] :=
  rx_refines (by decide)
    ⟨trivial, fun h => absurd h (by decide), fun h => absurd h (by decide), trivial,
      fun _ => by decide, trivial⟩

end AdcUdpStream.Net
