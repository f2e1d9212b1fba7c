import AdcUdpStream.Lib.Ring
import AdcUdpStream.Lib.Steps

/-!
# The transmit ring (`lpc17xx_40xx_emac.c`)

The driver and the Ethernet DMA share a ring of descriptors: the driver writes at
the produce index, the DMA sends at the consume index, and each may take a step
at any time. `low_level_output` is therefore run in steps (`cpu`): it waits for
free descriptors, then writes one descriptor after the other. `lpc_tx_reclaim`
frees the pbufs of the descriptors between the last one it saw and the consume
index.

Whatever the interleaving, what is written is sent once and in order (`fifo_run`),
and the frames on the wire are the frames handed over, in order and with their
bytes (`wire_in_order`).
-/

namespace AdcUdpStream.Net

open Ring Steps

/-! ## Pbufs -/

def lpcNumBuffTxdescs : Nat := 4

/-- One pbuf of a chain: the address of its payload, its bytes, the memory behind them. -/
structure Frag where
  payload : Nat
  bytes : List UInt8
  beyond : List UInt8 := []
  deriving DecidableEq

/-- A pbuf with the pbufs chained to it; `owner` names the first one. -/
structure Chain where
  owner : Nat
  frags : List Frag
  frags_ne : frags ≠ []

def Chain.pbufClen (p : Chain) : Nat := p.frags.length

def Chain.bytes (p : Chain) : List UInt8 := (p.frags.map Frag.bytes).flatten

def Chain.totLen (p : Chain) : Nat := p.bytes.length

/-- 1 where the DMA cannot read: the safe ranges are the peripheral SRAM and the DRAM. -/
def lpcPacketAddrNotsafe (addr : Nat) : Nat :=
  if (0x20000000 ≤ addr ∧ addr < 0x20008000) ∨ (0xa0000000 ≤ addr ∧ addr < 0xe0000000) then 0
  else 1

def Chain.notdmasafe (p : Chain) : Nat := (p.frags.map fun q => lpcPacketAddrNotsafe q.payload).sum

/-! ## The ring -/

/-- `ENET_TCTRL_SIZE(n)`, for a `u16_t`. -/
def enetTctrlSize (n : Nat) : Nat := if n = 0 then 0x7FF else (n - 1) % 0x800

/-- `Packet` and `Control`, whose interrupt bit is always set. -/
structure TxDesc where
  packet : Frag
  size : Nat
  last : Bool
  deriving DecidableEq

/-- What the DMA sends for a descriptor: `Control` holds the size minus one. -/
def TxDesc.data (d : TxDesc) : List UInt8 := (d.packet.bytes ++ d.packet.beyond).take (d.size + 1)

/-- `lpc_low_level_output` under way: the pbufs without a descriptor yet, and the pbuf to free when
the frame is sent. Before `filling` it waits for free descriptors. -/
structure Job where
  frags : List Frag
  owner : Nat
  filling : Bool

/-- The transmit part of `lpc_enetdata_t`, the two index registers, and the call under way. -/
structure Tx where
  ptxd : Nat → TxDesc
  txb : Nat → Option Nat
  lpcLastTxIdx : Nat
  produceIndex : Nat
  consumeIndex : Nat
  job : Option Job

def lpcTxSetup : Tx :=
  { ptxd := fun _ => ⟨⟨0, [], []⟩, 0, false⟩, txb := fun _ => none, lpcLastTxIdx := 0,
    produceIndex := 0, consumeIndex := 0, job := none }

/-- `lpc_tx_ready`: one descriptor stays free. -/
def lpcTxReady (s : Tx) : Nat :=
  lpcNumBuffTxdescs - 1 - fill lpcNumBuffTxdescs s.produceIndex s.consumeIndex

/-- The chain that is queued for `p`: `p` itself, or its copy in DMA memory when `pbuf_alloc` found
room for one. -/
def queuedChain (p : Chain) (np : Option (Nat × Nat)) : Option Chain :=
  if p.notdmasafe = 0 then some p
  else np.map fun a => ⟨a.1, [⟨a.2, p.bytes, []⟩], List.cons_ne_nil _ _⟩

/-- One pass of the loop over the pbufs: `txb` is set on the last descriptor only. -/
def fillDesc (s : Tx) (j : Job) (q : Frag) (rest : List Frag) : Tx :=
  { s with
    ptxd := Function.update s.ptxd s.produceIndex ⟨q, enetTctrlSize q.bytes.length, rest.isEmpty⟩
    txb := Function.update s.txb s.produceIndex (if rest.isEmpty then some j.owner else none)
    produceIndex := next lpcNumBuffTxdescs s.produceIndex
    job := if rest.isEmpty then none else some { j with frags := rest } }

/-- `lpc_tx_reclaim_st`, at most `n` passes: the freed pbufs, in order. -/
def lpcTxReclaimSt (cidx : Nat) : Nat → Tx → Tx × List Nat
  | 0, s => (s, [])
  | n + 1, s =>
    if cidx = s.lpcLastTxIdx then (s, [])
    else
      let r := lpcTxReclaimSt cidx n { s with
        txb := Function.update s.txb s.lpcLastTxIdx none
        lpcLastTxIdx := next lpcNumBuffTxdescs s.lpcLastTxIdx }
      (r.1, (s.txb s.lpcLastTxIdx).toList ++ r.2)

/-- The DMA is done with a descriptor. -/
def Tx.advance (s : Tx) : Tx := { s with consumeIndex := next lpcNumBuffTxdescs s.consumeIndex }

/-! ## Steps -/

/-- `output`: `lpc_low_level_output` is called, with what `pbuf_alloc` would answer. `cpu`: the call
under way goes on. `dma`: the DMA sends a descriptor. `reclaim`: `lpc_tx_reclaim` is called. -/
inductive TxEvent where
  | output (p : Chain) (np : Option (Nat × Nat))
  | cpu
  | dma
  | reclaim

/-- `accepted p c`: `c` is queued for `p`. `errMem`: `lpc_low_level_output` returned `ERR_MEM`. -/
inductive TxOut where
  | nothing
  | accepted (p c : Chain)
  | errMem
  | wrote (d : TxDesc) (owner : Option Nat)
  | sent (d : TxDesc)
  | freed (owners : List Nat)

/-- One step. There is one thread: while a call is under way no other is made. -/
def txStep (s : Tx) : TxEvent → Tx × TxOut
  | .output p np =>
    match s.job with
    | some _ => (s, .nothing)
    | none =>
      match queuedChain p np with
      | some c => ({ s with job := some ⟨c.frags, c.owner, false⟩ }, .accepted p c)
      | none => (s, .errMem)
  | .cpu =>
    match s.job with
    | none => (s, .nothing)
    | some j =>
      if j.filling then
        match j.frags with
        | [] => (s, .nothing)
        | q :: rest =>
          (fillDesc s j q rest, .wrote ⟨q, enetTctrlSize q.bytes.length, rest.isEmpty⟩
            (if rest.isEmpty then some j.owner else none))
      -- `msDelay(1)` while there are too few
      else if j.frags.length > lpcTxReady s then (s, .nothing)
      else ({ s with job := some { j with filling := true } }, .nothing)
  | .dma =>
    if s.consumeIndex = s.produceIndex then (s, .nothing)
    else (s.advance, .sent (s.ptxd s.consumeIndex))
  | .reclaim =>
    match s.job with
    | some _ => (s, .nothing)
    | none =>
      let r := lpcTxReclaimSt s.consumeIndex lpcNumBuffTxdescs s
      (r.1, .freed r.2)

/-! ## What a step does -/

def Tx.Stuck (s : Tx) : TxEvent → Prop
  | .output _ _ => s.job ≠ none
  | .cpu => ∀ j, s.job = some j →
    j.filling = true ∧ j.frags = [] ∨ j.filling = false ∧ lpcTxReady s < j.frags.length
  | .dma => s.consumeIndex = s.produceIndex
  | .reclaim => s.job ≠ none

inductive TxMove (s : Tx) : TxEvent → Tx × TxOut → Prop
  | stays {e : TxEvent} (h : s.Stuck e) : TxMove s e (s, .nothing)
  | accepts {p c : Chain} {np : Option (Nat × Nat)} (hj : s.job = none)
      (hc : queuedChain p np = some c) :
      TxMove s (.output p np) ({ s with job := some ⟨c.frags, c.owner, false⟩ }, .accepted p c)
  | fails {p : Chain} {np : Option (Nat × Nat)} (hj : s.job = none)
      (hc : queuedChain p np = none) : TxMove s (.output p np) (s, .errMem)
  | starts {j : Job} (hj : s.job = some j) (hf : j.filling = false)
      (hr : j.frags.length ≤ lpcTxReady s) :
      TxMove s .cpu ({ s with job := some { j with filling := true } }, .nothing)
  | writes {j : Job} {q : Frag} {rest : List Frag} (hj : s.job = some j) (hf : j.filling = true)
      (hq : j.frags = q :: rest) :
      TxMove s .cpu (fillDesc s j q rest, .wrote ⟨q, enetTctrlSize q.bytes.length, rest.isEmpty⟩
        (if rest.isEmpty then some j.owner else none))
  | sends (hne : s.consumeIndex ≠ s.produceIndex) :
      TxMove s .dma (s.advance, .sent (s.ptxd s.consumeIndex))
  | reclaims (hj : s.job = none) :
      TxMove s .reclaim ((lpcTxReclaimSt s.consumeIndex lpcNumBuffTxdescs s).1,
        .freed (lpcTxReclaimSt s.consumeIndex lpcNumBuffTxdescs s).2)

/-- **Every step has one of these outcomes.** -/
theorem txStep_move (s : Tx) (e : TxEvent) : TxMove s e (txStep s e) := by
  have stays : s.Stuck e → TxMove s e (s, .nothing) := TxMove.stays
  cases e with
  | output p np =>
    cases hj : s.job with
    | some j => simpa only [txStep, hj] using stays (by simp [Tx.Stuck, hj])
    | none =>
      cases hc : queuedChain p np with
      | some c => simpa only [txStep, hj, hc] using TxMove.accepts hj hc
      | none => simpa only [txStep, hj, hc] using TxMove.fails hj hc
  | cpu =>
    cases hj : s.job with
    | none => simpa only [txStep, hj] using stays (by simp [Tx.Stuck, hj])
    | some j =>
      cases hf : j.filling with
      | true =>
        cases hq : j.frags with
        | nil =>
          simpa only [txStep, hj, hf, hq, ↓reduceIte] using stays (by simp [Tx.Stuck, hj, hf, hq])
        | cons q rest =>
          simpa only [txStep, hj, hf, hq, ↓reduceIte] using TxMove.writes hj hf hq
      | false =>
        by_cases hr : j.frags.length > lpcTxReady s
        · simpa only [txStep, hj, hf, hr, Bool.false_eq_true, ↓reduceIte]
            using stays (by simpa [Tx.Stuck, hj, hf] using hr)
        · simpa only [txStep, hj, hf, hr, Bool.false_eq_true, ↓reduceIte]
            using TxMove.starts hj hf (Nat.not_lt.mp hr)
  | dma =>
    by_cases he : s.consumeIndex = s.produceIndex
    · simpa only [txStep, if_pos he] using stays he
    · simpa only [txStep, if_neg he] using TxMove.sends he
  | reclaim =>
    cases hj : s.job with
    | some j => simpa only [txStep, hj] using stays (by simp [Tx.Stuck, hj])
    | none => simpa only [txStep, hj] using TxMove.reclaims hj

def Tx.filled (s : Tx) : Nat := fill lpcNumBuffTxdescs s.produceIndex s.consumeIndex

def Tx.pending (s : Tx) : List TxDesc :=
  window s.ptxd lpcNumBuffTxdescs s.consumeIndex s.filled

/-- The indexes are in the ring, and a call that fills has room for what is left of it. -/
structure Tx.Inv (s : Tx) : Prop where
  produce : s.produceIndex < lpcNumBuffTxdescs
  consume : s.consumeIndex < lpcNumBuffTxdescs
  last : s.lpcLastTxIdx < lpcNumBuffTxdescs
  frags : ∀ j, s.job = some j → j.frags ≠ []
  room : ∀ j, s.job = some j → j.filling = true → s.filled + j.frags.length < lpcNumBuffTxdescs

theorem descs_pos : 0 < lpcNumBuffTxdescs := by decide

theorem lpcTxSetup_inv : lpcTxSetup.Inv := by
  refine ⟨descs_pos, descs_pos, descs_pos, fun j hj => ?_, fun j hj => ?_⟩ <;> cases hj

theorem Tx.Inv.filled_lt {s : Tx} (h : s.Inv) : s.filled < lpcNumBuffTxdescs :=
  fill_lt h.consume h.produce

theorem Tx.Inv.produce_eq {s : Tx} (h : s.Inv) :
    s.produceIndex = slot lpcNumBuffTxdescs s.consumeIndex s.filled :=
  (slot_fill h.consume h.produce).symm

section Write

variable {s : Tx} {j : Job} {q : Frag} {rest : List Frag}

theorem fillDesc_pending (j : Job) (q : Frag) (rest : List Frag) (h : s.Inv)
    (hroom : s.filled + 1 < lpcNumBuffTxdescs) :
    (fillDesc s j q rest).filled = s.filled + 1 ∧
      (fillDesc s j q rest).pending =
        s.pending ++ [⟨q, enetTctrlSize q.bytes.length, rest.isEmpty⟩] := by
  have hfill : (fillDesc s j q rest).filled = s.filled + 1 := by
    show fill _ (next _ s.produceIndex) s.consumeIndex = _
    rw [h.produce_eq, next_slot descs_pos, fill_slot h.consume hroom]
  refine ⟨hfill, ?_⟩
  rw [Tx.pending, hfill]
  show window (Function.update s.ptxd s.produceIndex _) _ s.consumeIndex _ = _
  nth_rewrite 1 [h.produce_eq]
  exact window_push h.filled_lt _

theorem send_pending (h : s.Inv) (hne : s.consumeIndex ≠ s.produceIndex) :
    s.pending = s.ptxd s.consumeIndex :: s.advance.pending ∧
      s.filled = s.advance.filled + 1 := by
  have hpos : s.filled ≠ 0 := by
    intro h0
    have := h.produce_eq
    rw [h0, slot_zero h.consume] at this
    exact hne this.symm
  obtain ⟨k, hk⟩ := Nat.exists_eq_succ_of_ne_zero hpos
  have hlt := h.filled_lt
  have hfill : s.advance.filled = k := by
    show fill _ s.produceIndex (next _ s.consumeIndex) = k
    rw [h.produce_eq, hk, ← slot_next h.consume]
    exact fill_slot (next_lt descs_pos) (by omega)
  refine ⟨?_, by rw [hfill, hk]⟩
  rw [Tx.pending, hk, window_pop _ h.consume, Tx.pending, hfill]
  rfl

end Write

theorem reclaim_frame (cidx n : Nat) (s : Tx) :
    ∃ txb last, (lpcTxReclaimSt cidx n s).1 = { s with txb := txb, lpcLastTxIdx := last } ∧
      (s.lpcLastTxIdx < lpcNumBuffTxdescs → last < lpcNumBuffTxdescs) := by
  induction n generalizing s with
  | zero => exact ⟨s.txb, s.lpcLastTxIdx, rfl, id⟩
  | succ n ih =>
    rw [lpcTxReclaimSt]
    split
    · exact ⟨s.txb, s.lpcLastTxIdx, rfl, id⟩
    · obtain ⟨txb, last, heq, hlt⟩ := ih { s with
        txb := Function.update s.txb s.lpcLastTxIdx none
        lpcLastTxIdx := next lpcNumBuffTxdescs s.lpcLastTxIdx }
      exact ⟨txb, last, heq, fun _ => hlt (next_lt descs_pos)⟩

/-- **Every step keeps the ring in order.** -/
theorem inv_step (s : Tx) (e : TxEvent) (h : s.Inv) : (txStep s e).1.Inv := by
  have hmove := txStep_move s e
  obtain ⟨hp, hc, hl, hfr, hroom⟩ := id h
  generalize txStep s e = r at hmove ⊢
  cases hmove with
  | stays => exact h
  | @accepts p c np hj hq =>
    refine ⟨hp, hc, hl, fun j hj' => ?_, fun j hj' hf => ?_⟩
    · obtain rfl := Option.some.inj hj'
      exact c.frags_ne
    · obtain rfl := Option.some.inj hj'
      cases hf
  | fails => exact h
  | @starts j hj hf hr =>
    refine ⟨hp, hc, hl, fun j' hj' => ?_, fun j' hj' _ => ?_⟩
    · obtain rfl := Option.some.inj hj'
      exact hfr j hj
    · obtain rfl := Option.some.inj hj'
      have hlt := h.filled_lt
      have hr : j.frags.length ≤ lpcNumBuffTxdescs - 1 - s.filled := hr
      show s.filled + j.frags.length < lpcNumBuffTxdescs
      omega
  | @writes j q rest hj hf hq =>
    have hlen := hroom j hj hf
    rw [hq, List.length_cons] at hlen
    obtain ⟨hfill, -⟩ := fillDesc_pending j q rest h (by omega)
    have hjob : ∀ j', (fillDesc s j q rest).job = some j' → j'.frags = rest ∧ rest ≠ [] := by
      intro j' hj'
      have hj' : (if rest.isEmpty then none else some { j with frags := rest }) = some j' := hj'
      split at hj'
      · cases hj'
      · next hne =>
        obtain rfl := Option.some.inj hj'
        exact ⟨rfl, fun hnil => hne (by rw [hnil]; rfl)⟩
    refine ⟨next_lt descs_pos, hc, hl, fun j' hj' => ?_, fun j' hj' _ => ?_⟩
    · obtain ⟨he, hne⟩ := hjob j' hj'
      rwa [he]
    · obtain ⟨he, -⟩ := hjob j' hj'
      rw [he, hfill]
      omega
  | sends hne =>
    obtain ⟨-, hfill⟩ := send_pending h hne
    refine ⟨hp, next_lt descs_pos, hl, hfr, fun j hj hf => ?_⟩
    have := hroom j hj hf
    show s.advance.filled + j.frags.length < _
    omega
  | reclaims hj =>
    obtain ⟨txb, last, heq, hlast⟩ := reclaim_frame s.consumeIndex lpcNumBuffTxdescs s
    rw [heq]
    exact ⟨hp, hc, hlast hl, hfr, hroom⟩

structure Tx.Quiet (s : Tx) : Prop where
  inv : s.Inv
  job : s.job = none
  sent : s.consumeIndex = s.produceIndex
  reclaimed : s.lpcLastTxIdx = s.consumeIndex

theorem lpcTxSetup_quiet : lpcTxSetup.Quiet := ⟨lpcTxSetup_inv, rfl, rfl, rfl⟩

theorem Tx.Quiet.pending {s : Tx} (h : s.Quiet) : s.pending = [] := by
  rw [Tx.pending, Tx.filled, ← h.sent, fill_self, window_zero]

/-! ## First in, first out -/

def descsOf : List Frag → List TxDesc
  | [] => []
  | q :: rest => ⟨q, enetTctrlSize q.bytes.length, rest.isEmpty⟩ :: descsOf rest

def Tx.left (s : Tx) : List TxDesc :=
  match s.job with
  | none => []
  | some j => descsOf j.frags

def wrote (os : List TxOut) : List TxDesc :=
  os.filterMap fun
    | .wrote d _ => some d
    | _ => none

def sent (os : List TxOut) : List TxDesc :=
  os.filterMap fun
    | .sent d => some d
    | _ => none

def accepted (os : List TxOut) : List (Chain × Chain) :=
  os.filterMap fun
    | .accepted p c => some (p, c)
    | _ => none

theorem wrote_append (os os' : List TxOut) : wrote (os ++ os') = wrote os ++ wrote os' :=
  List.filterMap_append

theorem sent_append (os os' : List TxOut) : sent (os ++ os') = sent os ++ sent os' :=
  List.filterMap_append

theorem accepted_append (os os' : List TxOut) :
    accepted (os ++ os') = accepted os ++ accepted os' := List.filterMap_append

/-- What was written is sent or pending, and what was accepted is written or left. -/
structure Fifo (s : Tx) (os : List TxOut) : Prop where
  inv : s.Inv
  ring : sent os ++ s.pending = wrote os
  call : wrote os ++ s.left = (accepted os).flatMap fun a => descsOf a.2.frags

theorem fillDesc_left (s : Tx) (j : Job) (q : Frag) (rest : List Frag) :
    (fillDesc s j q rest).left = descsOf rest := by
  unfold Tx.left fillDesc
  cases rest with
  | nil => rfl
  | cons r rest => rfl

theorem fifo_step (s : Tx) (os : List TxOut) (e : TxEvent) (h : Fifo s os) :
    Fifo (txStep s e).1 (os ++ [(txStep s e).2]) := by
  have hinv := inv_step s e h.inv
  have hmove := txStep_move s e
  obtain ⟨hs, hring, hcall⟩ := h
  generalize txStep s e = r at hmove hinv ⊢
  have hother : ∀ o : TxOut, wrote [o] = [] → sent [o] = [] → accepted [o] = [] →
      wrote (os ++ [o]) = wrote os ∧ sent (os ++ [o]) = sent os ∧
        accepted (os ++ [o]) = accepted os := by
    intro o h1 h2 h3
    rw [wrote_append, sent_append, accepted_append, h1, h2, h3]
    simp only [List.append_nil, and_self]
  cases hmove with
  | stays =>
    obtain ⟨h1, h2, h3⟩ := hother .nothing rfl rfl rfl
    exact ⟨hinv, by rw [h1, h2]; exact hring, by rw [h1, h3]; exact hcall⟩
  | @accepts p c np hj hc =>
    refine ⟨hinv, ?_, ?_⟩
    · rw [wrote_append, sent_append, show wrote [.accepted p c] = [] from rfl,
        show sent [.accepted p c] = [] from rfl, List.append_nil, List.append_nil]
      exact hring
    · rw [wrote_append, accepted_append, List.flatMap_append, ← hcall]
      simp [wrote, accepted, Tx.left, hj]
  | fails hj hc =>
    obtain ⟨h1, h2, h3⟩ := hother .errMem rfl rfl rfl
    exact ⟨hinv, by rw [h1, h2]; exact hring, by rw [h1, h3]; exact hcall⟩
  | @starts j hj hf hr =>
    obtain ⟨h1, h2, h3⟩ := hother .nothing rfl rfl rfl
    refine ⟨hinv, by rw [h1, h2]; exact hring, ?_⟩
    rw [h1, h3, ← hcall]
    simp only [Tx.left, hj]
  | @writes j q rest hj hf hq =>
    have hroom := hs.room j hj hf
    rw [hq, List.length_cons] at hroom
    obtain ⟨-, hpend⟩ := fillDesc_pending j q rest hs (by omega)
    refine ⟨hinv, ?_, ?_⟩
    · rw [wrote_append, sent_append, hpend, ← hring]
      simp [wrote, sent]
    · rw [wrote_append, accepted_append, fillDesc_left, List.flatMap_append, ← hcall]
      simp [wrote, accepted, Tx.left, hj, hq, descsOf]
  | sends hne =>
    obtain ⟨hpend, -⟩ := send_pending hs hne
    refine ⟨hinv, ?_, ?_⟩
    · rw [wrote_append, sent_append, ← hring, hpend]
      simp [wrote, sent]
    · rw [wrote_append, accepted_append, List.flatMap_append, ← hcall]
      simp [wrote, accepted, Tx.advance, Tx.left]
  | reclaims hj =>
    obtain ⟨h1, h2, h3⟩ := hother
      (.freed (lpcTxReclaimSt s.consumeIndex lpcNumBuffTxdescs s).2) rfl rfl rfl
    obtain ⟨txb, last, heq, -⟩ := reclaim_frame s.consumeIndex lpcNumBuffTxdescs s
    rw [heq] at hinv ⊢
    exact ⟨hinv, by rw [h1, h2]; exact hring, by rw [h1, h3]; exact hcall⟩

/-- **Every descriptor is sent once and in order**, over any run. -/
theorem fifo_run {s : Tx} (hs : s.Quiet) (es : List TxEvent) :
    Fifo (final txStep s es) (outs txStep s es) := by
  have h0 : Fifo s [] := by
    refine ⟨hs.inv, hs.pending, ?_⟩
    simp only [Tx.left, hs.job]
    rfl
  have h := final_outs_inv (fun s os e => fifo_step s os e) h0 es
  rwa [List.nil_append] at h

/-! ## Frames -/

/-- The bytes between two `LAST` descriptors, `acc` the bytes of the frame begun. -/
def frames : List UInt8 → List TxDesc → List (List UInt8)
  | _, [] => []
  | acc, d :: ds =>
    if d.last then (acc ++ d.data) :: frames [] ds else frames (acc ++ d.data) ds

theorem frames_mono {ds es : List TxDesc} (h : ds <+: es) (acc : List UInt8) :
    frames acc ds <+: frames acc es := by
  induction ds generalizing es acc with
  | nil => exact List.nil_prefix
  | cons d ds ih =>
    obtain ⟨rest, rfl⟩ := h
    have htail : ∀ acc, frames acc ds <+: frames acc (ds ++ rest) := ih ⟨rest, rfl⟩
    rw [List.cons_append, frames, frames]
    split
    · exact List.cons_prefix_cons.mpr ⟨rfl, htail []⟩
    · exact htail _

theorem enetTctrlSize_succ {n : Nat} (h0 : 0 < n) (hn : n ≤ 0x800) : enetTctrlSize n + 1 = n := by
  rw [enetTctrlSize, if_neg (by omega), Nat.mod_eq_of_lt (by omega)]
  omega

theorem frames_descsOf {fs : List Frag} (hne : fs ≠ [])
    (h : ∀ q ∈ fs, 0 < q.bytes.length ∧ q.bytes.length ≤ 0x800) (acc : List UInt8)
    (ds : List TxDesc) :
    frames acc (descsOf fs ++ ds) = (acc ++ (fs.map Frag.bytes).flatten) :: frames [] ds := by
  induction fs generalizing acc with
  | nil => exact absurd rfl hne
  | cons q rest ih =>
    obtain ⟨⟨h0, h1⟩, hrest⟩ := List.forall_mem_cons.mp h
    have hdata : (⟨q, enetTctrlSize q.bytes.length, rest.isEmpty⟩ : TxDesc).data = q.bytes := by
      rw [TxDesc.data, enetTctrlSize_succ h0 h1, List.take_left]
    rw [descsOf, List.cons_append, frames, hdata, List.map_cons, List.flatten_cons]
    cases rest with
    | nil => simp [descsOf]
    | cons r rest =>
      rw [← List.append_assoc, ← ih (List.cons_ne_nil r rest) hrest]
      rfl

/-- No empty pbuf, and at most 2048 bytes. -/
def Chain.Sized (p : Chain) : Prop := (∀ q ∈ p.frags, q.bytes ≠ []) ∧ p.totLen ≤ 0x800

theorem queuedChain_bytes {p c : Chain} {np : Option (Nat × Nat)} (h : queuedChain p np = some c) :
    c.bytes = p.bytes := by
  unfold queuedChain at h
  split at h
  · rw [Option.some.inj h]
  · obtain ⟨a, -, rfl⟩ := Option.map_eq_some_iff.mp h
    exact List.append_nil _

theorem Chain.Sized.frag {p : Chain} (h : p.Sized) {q : Frag} (hq : q ∈ p.frags) :
    0 < q.bytes.length ∧ q.bytes.length ≤ 0x800 := by
  have hle : q.bytes.length ≤ p.totLen :=
    (List.sublist_flatten_of_mem (List.mem_map_of_mem hq)).length_le
  exact ⟨List.length_pos_iff.mpr (h.1 q hq), Nat.le_trans hle h.2⟩

theorem queuedChain_sized {p c : Chain} {np : Option (Nat × Nat)} (h : queuedChain p np = some c)
    (hp : p.Sized) : c.Sized := by
  have hb := queuedChain_bytes h
  refine ⟨?_, by rw [Chain.totLen, hb]; exact hp.2⟩
  unfold queuedChain at h
  split at h
  · rw [← Option.some.inj h]
    exact hp.1
  · obtain ⟨a, -, rfl⟩ := Option.map_eq_some_iff.mp h
    intro q hq
    obtain rfl := List.mem_singleton.mp hq
    obtain ⟨r, hr⟩ := List.exists_mem_of_ne_nil _ p.frags_ne
    obtain ⟨h0, -⟩ := hp.frag hr
    have hle : r.bytes.length ≤ p.bytes.length :=
      (List.sublist_flatten_of_mem (List.mem_map_of_mem hr)).length_le
    exact List.length_pos_iff.mp (Nat.lt_of_lt_of_le h0 hle)

theorem accepted_output {s : Tx} {es : List TxEvent} {a : Chain × Chain}
    (h : a ∈ accepted (outs txStep s es)) :
    ∃ np, TxEvent.output a.1 np ∈ es ∧ queuedChain a.1 np = some a.2 := by
  induction es generalizing s with
  | nil => cases h
  | cons e es ih =>
    rw [outs_cons, ← List.singleton_append, accepted_append] at h
    rcases List.mem_append.mp h with h | h
    · have hmove := txStep_move s e
      generalize txStep s e = r at hmove h
      cases hmove with
      | @accepts p c np hj hc =>
        obtain rfl := List.mem_singleton.mp h
        exact ⟨np, List.mem_cons_self .., hc⟩
      | _ => cases h
    · obtain ⟨np, hmem, hc⟩ := ih h
      exact ⟨np, List.mem_cons_of_mem _ hmem, hc⟩

theorem frames_flatMap {as : List (Chain × Chain)} (h : ∀ a ∈ as, a.2.Sized) :
    frames [] (as.flatMap fun a => descsOf a.2.frags) = as.map fun a => a.2.bytes := by
  induction as with
  | nil => rfl
  | cons a as ih =>
    obtain ⟨ha, has⟩ := List.forall_mem_cons.mp h
    rw [List.flatMap_cons, frames_descsOf a.2.frags_ne (fun q hq => ha.frag hq), ih has]
    rfl

def handed (os : List TxOut) : List (List UInt8) := (accepted os).map fun a => a.1.bytes

/-- **The wire.** Whatever the interleaving of driver and DMA: the frames sent are the first of
the frames handed over, in order and byte for byte, and they are all of them once the driver
is idle and the ring is drained. -/
theorem wire_in_order (es : List TxEvent) (hsize : ∀ p np, TxEvent.output p np ∈ es → p.Sized) :
    frames [] (sent (outs txStep lpcTxSetup es)) <+: handed (outs txStep lpcTxSetup es) ∧
      ((final txStep lpcTxSetup es).job = none →
        (final txStep lpcTxSetup es).consumeIndex = (final txStep lpcTxSetup es).produceIndex →
        frames [] (sent (outs txStep lpcTxSetup es)) = handed (outs txStep lpcTxSetup es)) := by
  obtain ⟨hinv, hring, hcall⟩ := fifo_run lpcTxSetup_quiet es
  have hall : frames [] ((accepted (outs txStep lpcTxSetup es)).flatMap
      fun a => descsOf a.2.frags) = handed (outs txStep lpcTxSetup es) := by
    rw [frames_flatMap]
    · exact List.map_congr_left fun a ha => by
        obtain ⟨np, -, hc⟩ := accepted_output ha
        exact queuedChain_bytes hc
    · intro a ha
      obtain ⟨np, hmem, hc⟩ := accepted_output ha
      exact queuedChain_sized hc (hsize _ _ hmem)
  rw [← hall, ← hcall, ← hring]
  refine ⟨frames_mono ⟨_, (List.append_assoc ..).symm⟩ [], fun hj hd => ?_⟩
  rw [Tx.pending, Tx.filled, hd, fill_self, window_zero, Tx.left, hj, List.append_nil,
    List.append_nil]

/-- Two bytes in peripheral SRAM, each in a pbuf of its own. -/
def Chain.pair (owner : Nat) (x y : UInt8) : Chain :=
  ⟨owner, [⟨0x20000000, [x], []⟩, ⟨0x20000800, [y], []⟩], List.cons_ne_nil _ _⟩

theorem Chain.pair_sized (owner : Nat) (x y : UInt8) : (Chain.pair owner x y).Sized := by
  refine ⟨fun q hq => ?_, Nat.le_of_ble_eq_true rfl⟩
  simp only [pair, List.mem_cons, List.not_mem_nil, or_false] at hq
  rcases hq with rfl | rfl
  · exact List.cons_ne_nil _ _
  · exact List.cons_ne_nil _ _

/-- The second frame has to wait for one descriptor of the first. -/
def sendPairs : List TxEvent :=
  [.output (.pair 1 7 8) none, .cpu, .cpu, .cpu, .output (.pair 2 9 10) none, .cpu, .dma, .cpu,
    .dma, .cpu, .cpu, .dma, .dma]

theorem wire_in_order_pairs :
    frames [] (sent (outs txStep lpcTxSetup sendPairs)) = [[7, 8], [9, 10]] := by
  refine (wire_in_order sendPairs fun p np h => ?_).2 rfl rfl
  simp only [sendPairs, List.mem_cons, TxEvent.output.injEq, List.not_mem_nil, or_false,
    reduceCtorEq, false_or] at h
  rcases h with ⟨rfl, -⟩ | ⟨rfl, -⟩
  · exact Chain.pair_sized 1 7 8
  · exact Chain.pair_sized 2 9 10

end AdcUdpStream.Net
