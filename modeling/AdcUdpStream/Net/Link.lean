import AdcUdpStream.Lib.Steps

/-!
# The link (`lpc_phy_smsc87x0.c`, the main loops)

`lpcPHYStsPoll` reads the basic status and the special status register of the PHY,
one after the other, without waiting for the MII. The main loops call it in every
round and, when it reports a change, set the MAC to the speed and duplex mode and
tell lwIP. Both programs do the same, up to the LEDs.

The calls are the changes among the completed reads, each once (`link_reports`),
and the link is up, at the right speed and mode, when the last read says so
(`link_mirrors`).
-/

namespace AdcUdpStream.Net

open Steps

/-! ## The registers -/

def lan8BsrReg : Nat := 0x1
def lan8PhysplctlReg : Nat := 0x1F

def lan8LinkStatus : UInt16 := 0x04
def lan8Speedmask : UInt16 := 0x1C
def lan8Speed10F : UInt16 := 0x14
def lan8Speed100H : UInt16 := 0x08
def lan8Speed10H : UInt16 := 0x04

def phyLinkBusy : UInt32 := 0x02
def phyLinkChanged : UInt32 := 0x04
def phyLinkConnected : UInt32 := 0x08
def phyLinkSpeed100 : UInt32 := 0x10
def phyLinkFullduplx : UInt32 := 0x20

/-- `PHY_LINK_SPEED100 | PHY_LINK_FULLDUPLX | PHY_LINK_CONNECTED`. -/
def phyLinkState : UInt32 := 0x38

/-- The registers of the MAC that depend on the link. -/
structure Mac where
  supp : UInt32
  mac2 : UInt32
  command : UInt32
  ipgt : UInt32

def Mac.set100Mbps (m : Mac) : Mac := { m with supp := 0x100 }
def Mac.set10Mbps (m : Mac) : Mac := { m with supp := 0 }

def Mac.setFullDuplex (m : Mac) : Mac :=
  { m with mac2 := m.mac2 ||| 0x1, command := m.command ||| 0x400, ipgt := 0x15 }

def Mac.setHalfDuplex (m : Mac) : Mac :=
  { m with mac2 := m.mac2 &&& ~~~0x1, command := m.command &&& ~~~0x400, ipgt := 0x12 }

/-! ## The driver of the PHY -/

/-- The statics of `lpc_phy_smsc87x0.c`, and the register the MII reads. -/
structure Phy where
  physts : UInt32 := 0
  olddphysts : UInt32 := 0
  phyustate : Nat := 0
  sts : UInt16 := 0
  madr : Nat := 0

/-- The MII at one call: whether it is busy, and what the registers of the PHY held when the read
was done. -/
structure Mii where
  busy : Bool
  regs : Nat → UInt16

def smscUpdatePhySts (s : Phy) (linksts sdsts : UInt16) : Phy :=
  let physts :=
    if linksts &&& lan8LinkStatus ≠ 0 then s.physts ||| phyLinkConnected
    else s.physts &&& ~~~phyLinkConnected
  let physts :=
    if sdsts &&& lan8Speedmask = lan8Speed10F then
      physts &&& ~~~phyLinkSpeed100 ||| phyLinkFullduplx
    else if sdsts &&& lan8Speedmask = lan8Speed100H then
      (physts ||| phyLinkSpeed100) &&& ~~~phyLinkFullduplx
    else if sdsts &&& lan8Speedmask = lan8Speed10H then
      physts &&& ~~~phyLinkSpeed100 &&& ~~~phyLinkFullduplx
    else physts ||| phyLinkSpeed100 ||| phyLinkFullduplx
  if physts &&& phyLinkState ≠ s.olddphysts &&& phyLinkState then
    { s with olddphysts := physts, physts := physts ||| phyLinkChanged }
  else { s with physts }

def lpcPHYStsPoll (s : Phy) (mii : Mii) : Phy :=
  match s.phyustate with
  | 1 =>
    if mii.busy then s
    else { s with sts := mii.regs s.madr, madr := lan8PhysplctlReg, phyustate := 2 }
  | 2 =>
    if mii.busy then s
    else
      let s := { s with physts := s.physts &&& ~~~phyLinkBusy }
      { smscUpdatePhySts s s.sts (mii.regs s.madr) with phyustate := 0 }
  | _ =>
    { s with
      madr := lan8BsrReg
      physts := s.physts &&& ~~~phyLinkChanged ||| phyLinkBusy
      phyustate := 1 }

/-! ## The main loop -/

/-- What the main loop tells lwIP: `netif_set_link_up` behind the setting of the MAC, or
`netif_set_link_down`. -/
inductive LinkCall where
  | up (speed100 fullDuplex : Bool)
  | down
  deriving DecidableEq

/-- `linkUp` is `NETIF_FLAG_LINK_UP`. -/
structure Eth where
  phy : Phy := {}
  mac : Mac
  linkUp : Bool := false

/-- One round: the poll, and what follows from the status it returns. -/
def linkStep (s : Eth) (mii : Mii) : Eth × Option LinkCall :=
  let phy := lpcPHYStsPoll s.phy mii
  let physts := phy.physts
  if physts &&& phyLinkChanged ≠ 0 then
    if physts &&& phyLinkConnected ≠ 0 then
      let speed := decide (physts &&& phyLinkSpeed100 ≠ 0)
      let duplex := decide (physts &&& phyLinkFullduplx ≠ 0)
      let mac := if speed then s.mac.set100Mbps else s.mac.set10Mbps
      let mac := if duplex then mac.setFullDuplex else mac.setHalfDuplex
      ({ phy, mac, linkUp := true }, some (.up speed duplex))
    else ({ s with phy, linkUp := false }, some .down)
  else ({ s with phy }, none)

/-! ## What the link is -/

/-- The link as the PHY describes it. -/
structure LinkStatus where
  connected : Bool
  speed100 : Bool
  fullDuplex : Bool
  deriving DecidableEq

/-- What the two registers say; 100 Mbps full duplex where the second one says nothing. -/
def linkStatus (bsr physplctl : UInt16) : LinkStatus :=
  { connected := decide (bsr &&& lan8LinkStatus ≠ 0)
    speed100 := decide (physplctl &&& lan8Speedmask ≠ lan8Speed10F ∧
      physplctl &&& lan8Speedmask ≠ lan8Speed10H)
    fullDuplex := decide (physplctl &&& lan8Speedmask ≠ lan8Speed100H ∧
      physplctl &&& lan8Speedmask ≠ lan8Speed10H) }

/-- Where the driver is in its two reads. -/
inductive Phase where
  | start
  | readBsr
  | readPhysplctl (bsr : UInt16)

/-- A call with the MII as it is, and the read it completes. -/
def Phase.next : Phase → Mii → Phase × Option LinkStatus
  | .start, _ => (.readBsr, none)
  | .readBsr, mii =>
    if mii.busy then (.readBsr, none) else (.readPhysplctl (mii.regs lan8BsrReg), none)
  | .readPhysplctl bsr, mii =>
    if mii.busy then (.readPhysplctl bsr, none)
    else (.start, some (linkStatus bsr (mii.regs lan8PhysplctlReg)))

/-- The reads a run completes. -/
def completed (phase : Phase) (miis : List Mii) : List LinkStatus :=
  (outs Phase.next phase miis).filterMap id

def changes : LinkStatus → List LinkStatus → List LinkStatus
  | _, [] => []
  | old, s :: ss => if s = old then changes old ss else s :: changes s ss

def LinkStatus.call (s : LinkStatus) : LinkCall :=
  if s.connected then .up s.speed100 s.fullDuplex else .down

def LinkStatus.init : LinkStatus := ⟨false, false, false⟩

structure Mac.SetTo (m : Mac) (s : LinkStatus) : Prop where
  supp : m.supp = if s.speed100 then 0x100 else 0
  mac2 : m.mac2 &&& 0x1 = if s.fullDuplex then 0x1 else 0
  command : m.command &&& 0x400 = if s.fullDuplex then 0x400 else 0
  ipgt : m.ipgt = if s.fullDuplex then 0x15 else 0x12

/-! ## The bits of the status -/

def word (busy changed : Bool) (s : LinkStatus) : UInt32 :=
  (if busy then phyLinkBusy else 0) ||| (if changed then phyLinkChanged else 0) |||
    (if s.connected then phyLinkConnected else 0) |||
    (if s.speed100 then phyLinkSpeed100 else 0) |||
    (if s.fullDuplex then phyLinkFullduplx else 0)

section Word

variable (b c k v d : Bool)

theorem word_started : word b c ⟨k, v, d⟩ &&& ~~~phyLinkChanged ||| phyLinkBusy =
    word true false ⟨k, v, d⟩ := by
  revert b c k v d
  decide

theorem word_read : word b c ⟨k, v, d⟩ &&& ~~~phyLinkBusy = word false c ⟨k, v, d⟩ := by
  revert b c k v d
  decide

theorem word_connected : word b c ⟨k, v, d⟩ ||| phyLinkConnected = word b c ⟨true, v, d⟩ ∧
    word b c ⟨k, v, d⟩ &&& ~~~phyLinkConnected = word b c ⟨false, v, d⟩ := by
  revert b c k v d
  decide

theorem word_speed10F : word b c ⟨k, v, d⟩ &&& ~~~phyLinkSpeed100 ||| phyLinkFullduplx =
    word b c ⟨k, false, true⟩ := by
  revert b c k v d
  decide

theorem word_speed100H : (word b c ⟨k, v, d⟩ ||| phyLinkSpeed100) &&& ~~~phyLinkFullduplx =
    word b c ⟨k, true, false⟩ := by
  revert b c k v d
  decide

theorem word_speed10H : word b c ⟨k, v, d⟩ &&& ~~~phyLinkSpeed100 &&& ~~~phyLinkFullduplx =
    word b c ⟨k, false, false⟩ := by
  revert b c k v d
  decide

theorem word_speed100F : word b c ⟨k, v, d⟩ ||| phyLinkSpeed100 ||| phyLinkFullduplx =
    word b c ⟨k, true, true⟩ := by
  revert b c k v d
  decide

theorem word_changed : word b c ⟨k, v, d⟩ ||| phyLinkChanged = word b true ⟨k, v, d⟩ := by
  revert b c k v d
  decide

theorem word_state : word b c ⟨k, v, d⟩ &&& phyLinkState = word false false ⟨k, v, d⟩ := by
  revert b c k v d
  decide

theorem word_bits : (word b c ⟨k, v, d⟩ &&& phyLinkChanged ≠ 0 ↔ c = true) ∧
    (word b c ⟨k, v, d⟩ &&& phyLinkConnected ≠ 0 ↔ k = true) ∧
    (word b c ⟨k, v, d⟩ &&& phyLinkSpeed100 ≠ 0 ↔ v = true) ∧
    (word b c ⟨k, v, d⟩ &&& phyLinkFullduplx ≠ 0 ↔ d = true) := by
  revert b c k v d
  decide

end Word

theorem word_inj {s t : LinkStatus} : word false false s = word false false t ↔ s = t := by
  obtain ⟨k, v, d⟩ := s
  obtain ⟨k', v', d'⟩ := t
  revert k v d k' v' d'
  decide

theorem smscUpdatePhySts_spec {s : Phy} {old : LinkStatus} (hs : s.physts = word false false old)
    (hold : s.olddphysts &&& phyLinkState = word false false old) (bsr physplctl : UInt16) :
    (smscUpdatePhySts s bsr physplctl).physts =
        word false (decide (linkStatus bsr physplctl ≠ old)) (linkStatus bsr physplctl) ∧
      (smscUpdatePhySts s bsr physplctl).olddphysts &&& phyLinkState =
        word false false (linkStatus bsr physplctl) := by
  obtain ⟨k, v, d⟩ := old
  unfold smscUpdatePhySts
  dsimp only
  rw [hs, hold]
  -- the connected bit
  have hlink : (if bsr &&& lan8LinkStatus ≠ 0 then word false false ⟨k, v, d⟩ ||| phyLinkConnected
      else word false false ⟨k, v, d⟩ &&& ~~~phyLinkConnected) =
      word false false ⟨(linkStatus bsr physplctl).connected, v, d⟩ := by
    unfold linkStatus
    split
    · next h =>
      have hk : decide (bsr &&& lan8LinkStatus ≠ 0) = true := decide_eq_true h
      rw [hk, (word_connected ..).1]
    · next h =>
      have hk : decide (bsr &&& lan8LinkStatus ≠ 0) = false := decide_eq_false h
      rw [hk, (word_connected ..).2]
  rw [hlink]
  generalize hm : physplctl &&& lan8Speedmask = mode
  -- speed and duplex mode
  have hmode : (if mode = lan8Speed10F then
        word false false ⟨(linkStatus bsr physplctl).connected, v, d⟩ &&& ~~~phyLinkSpeed100 |||
          phyLinkFullduplx
      else if mode = lan8Speed100H then
        (word false false ⟨(linkStatus bsr physplctl).connected, v, d⟩ ||| phyLinkSpeed100) &&&
          ~~~phyLinkFullduplx
      else if mode = lan8Speed10H then
        word false false ⟨(linkStatus bsr physplctl).connected, v, d⟩ &&& ~~~phyLinkSpeed100 &&&
          ~~~phyLinkFullduplx
      else word false false ⟨(linkStatus bsr physplctl).connected, v, d⟩ ||| phyLinkSpeed100 |||
        phyLinkFullduplx) = word false false (linkStatus bsr physplctl) := by
    rw [word_speed10F, word_speed100H, word_speed10H, word_speed100F]
    unfold linkStatus
    rw [hm]
    dsimp only
    split
    · next h => rw [h]; rfl
    · next h1 =>
      split
      · next h => rw [h]; rfl
      · next h2 =>
        split
        · next h => rw [h]; rfl
        · next h3 =>
          have hv : decide (mode ≠ lan8Speed10F ∧ mode ≠ lan8Speed10H) = true :=
            decide_eq_true ⟨h1, h3⟩
          have hd : decide (mode ≠ lan8Speed100H ∧ mode ≠ lan8Speed10H) = true :=
            decide_eq_true ⟨h2, h3⟩
          rw [hv, hd]
  rw [hmode]
  generalize linkStatus bsr physplctl = new
  obtain ⟨k', v', d'⟩ := new
  rw [word_state]
  by_cases hnew : (⟨k', v', d'⟩ : LinkStatus) = ⟨k, v, d⟩
  · rw [if_neg (not_not.mpr (word_inj.mpr hnew)), decide_eq_false (not_not.mpr hnew), hnew]
    exact ⟨rfl, hold⟩
  · rw [if_pos (fun h => hnew (word_inj.mp h)), decide_eq_true hnew]
    exact ⟨word_changed .., word_state ..⟩

/-! ## The MAC -/

theorem or_and_mask (x m : UInt32) : (x ||| m) &&& m = m := by
  apply UInt32.toBitVec_inj.mp
  ext i hi
  rw [UInt32.toBitVec_and, UInt32.toBitVec_or, BitVec.getElem_and, BitVec.getElem_or]
  cases m.toBitVec[i] with
  | false => exact Bool.and_false _
  | true => rw [Bool.or_true, Bool.and_true]

theorem and_not_mask (x m : UInt32) : x &&& ~~~m &&& m = 0 := by
  rw [UInt32.and_assoc, UInt32.not_and_self, UInt32.and_zero]

theorem Mac.setTo (m : Mac) (s : LinkStatus) :
    let m' := if s.speed100 then m.set100Mbps else m.set10Mbps
    Mac.SetTo (if s.fullDuplex then m'.setFullDuplex else m'.setHalfDuplex) s := by
  obtain ⟨k, v, d⟩ := s
  cases d with
  | false => cases v <;> exact ⟨rfl, and_not_mask .., and_not_mask .., rfl⟩
  | true => cases v <;> exact ⟨rfl, or_and_mask .., or_and_mask .., rfl⟩

/-! ## The main loop -/

def Phy.At (s : Phy) : Phase → LinkStatus → Prop
  | .start, last => s.phyustate = 0 ∧ ∃ c, s.physts = word false c last
  | .readBsr, last =>
    s.phyustate = 1 ∧ s.madr = lan8BsrReg ∧ s.physts = word true false last
  | .readPhysplctl bsr, last =>
    s.phyustate = 2 ∧ s.madr = lan8PhysplctlReg ∧ s.sts = bsr ∧ s.physts = word true false last

/-- The last completed read is what the driver compares with, what the link is and, while it is
up, what the MAC is set to. -/
structure Eth.Linked (s : Eth) (phase : Phase) (last : LinkStatus) : Prop where
  phy : s.phy.At phase last
  old : s.phy.olddphysts &&& phyLinkState = word false false last
  up : s.linkUp = last.connected
  mac : last.connected = true → s.mac.SetTo last

theorem linked_init (m : Mac) : Eth.Linked { mac := m } .start .init :=
  ⟨⟨rfl, false, rfl⟩, by rw [show Phy.olddphysts {} = 0 from rfl]; decide, rfl,
    fun h => absurd h Bool.false_ne_true⟩

theorem linkStep_quiet {s : Eth} {mii : Mii} {b : Bool} {last : LinkStatus}
    (h : (lpcPHYStsPoll s.phy mii).physts = word b false last) :
    linkStep s mii = ({ s with phy := lpcPHYStsPoll s.phy mii }, none) := by
  obtain ⟨k, v, d⟩ := last
  unfold linkStep
  dsimp only
  rw [h, if_neg]
  intro hc
  exact Bool.false_ne_true ((word_bits b false k v d).1.mp hc)

theorem linkStep_changed {s : Eth} {mii : Mii} {new : LinkStatus}
    (h : (lpcPHYStsPoll s.phy mii).physts = word false true new) :
    (linkStep s mii).2 = some new.call ∧
      (linkStep s mii).1.phy = lpcPHYStsPoll s.phy mii ∧
      (linkStep s mii).1.linkUp = new.connected ∧
      (new.connected = true → (linkStep s mii).1.mac.SetTo new) := by
  obtain ⟨k, v, d⟩ := new
  obtain ⟨hc, hk, hv, hd⟩ := word_bits false true k v d
  unfold linkStep
  dsimp only
  rw [h, if_pos (hc.mpr rfl), decide_eq_decide.mpr hv, decide_eq_decide.mpr hd]
  cases k with
  | false =>
    rw [if_neg (fun hne => Bool.false_ne_true (hk.mp hne))]
    exact ⟨rfl, rfl, rfl, fun h => absurd h Bool.false_ne_true⟩
  | true =>
    rw [if_pos (hk.mpr rfl)]
    rw [Bool.decide_eq_true, Bool.decide_eq_true]
    exact ⟨rfl, rfl, rfl, fun _ => Mac.setTo s.mac ⟨true, v, d⟩⟩

/-- **One round.** A read that is completed becomes the last one, and is passed on if it is not the
same. -/
theorem linkStep_linked {s : Eth} {phase : Phase} {last : LinkStatus} (h : s.Linked phase last)
    (mii : Mii) :
    (linkStep s mii).2 = (if (phase.next mii).2.getD last = last then none
        else some ((phase.next mii).2.getD last).call) ∧
      (linkStep s mii).1.Linked (phase.next mii).1 ((phase.next mii).2.getD last) := by
  obtain ⟨hphy, hold, hup, hmac⟩ := h
  cases phase with
  | start =>
    obtain ⟨hstate, c, hword⟩ := hphy
    have hpoll : (lpcPHYStsPoll s.phy mii).physts = word true false last := by
      simp only [lpcPHYStsPoll, hstate, hword]
      exact word_started ..
    rw [linkStep_quiet hpoll]
    refine ⟨(if_pos rfl).symm, ⟨?_, ?_, hpoll⟩, ?_, hup, hmac⟩
    all_goals simp only [lpcPHYStsPoll, hstate]
    exact hold
  | readBsr =>
    obtain ⟨hstate, hmadr, hword⟩ := hphy
    by_cases hb : mii.busy = true
    · have hpoll : lpcPHYStsPoll s.phy mii = s.phy := by
        simp only [lpcPHYStsPoll, hstate, if_pos hb]
      rw [linkStep_quiet (by rw [hpoll, hword]), Phase.next, if_pos hb, hpoll]
      exact ⟨(if_pos rfl).symm, ⟨hstate, hmadr, hword⟩, hold, hup, hmac⟩
    · have hpoll : lpcPHYStsPoll s.phy mii = { s.phy with
          sts := mii.regs lan8BsrReg, madr := lan8PhysplctlReg, phyustate := 2 } := by
        simp only [lpcPHYStsPoll, hstate, if_neg hb, hmadr]
      rw [linkStep_quiet (by rw [hpoll, hword]), Phase.next, if_neg hb, hpoll]
      exact ⟨(if_pos rfl).symm, ⟨rfl, rfl, rfl, hword⟩, hold, hup, hmac⟩
  | readPhysplctl bsr =>
    obtain ⟨hstate, hmadr, rfl, hword⟩ := hphy
    by_cases hb : mii.busy = true
    · have hpoll : lpcPHYStsPoll s.phy mii = s.phy := by
        simp only [lpcPHYStsPoll, hstate, if_pos hb]
      rw [linkStep_quiet (by rw [hpoll, hword]), Phase.next, if_pos hb, hpoll]
      exact ⟨(if_pos rfl).symm, ⟨hstate, hmadr, rfl, hword⟩, hold, hup, hmac⟩
    · have hpoll : lpcPHYStsPoll s.phy mii = { smscUpdatePhySts
          { s.phy with physts := s.phy.physts &&& ~~~phyLinkBusy } s.phy.sts
            (mii.regs lan8PhysplctlReg) with phyustate := 0 } := by
        simp only [lpcPHYStsPoll, hstate, if_neg hb, hmadr]
      have hcleared : s.phy.physts &&& ~~~phyLinkBusy = word false false last := by
        rw [hword]
        exact word_read ..
      obtain ⟨hphysts, hold'⟩ := smscUpdatePhySts_spec
        (s := { s.phy with physts := s.phy.physts &&& ~~~phyLinkBusy }) hcleared hold
        s.phy.sts (mii.regs lan8PhysplctlReg)
      rw [Phase.next, if_neg hb]
      dsimp only [Option.getD_some]
      generalize linkStatus s.phy.sts (mii.regs lan8PhysplctlReg) = new at hphysts hold'
      generalize smscUpdatePhySts { s.phy with physts := s.phy.physts &&& ~~~phyLinkBusy }
        s.phy.sts (mii.regs lan8PhysplctlReg) = p at hphysts hold' hpoll
      by_cases hnew : new = last
      · subst hnew
        rw [decide_eq_false (not_not.mpr rfl)] at hphysts
        rw [if_pos rfl, linkStep_quiet (by rw [hpoll]; exact hphysts), hpoll]
        exact ⟨rfl, ⟨rfl, false, hphysts⟩, hold', hup, hmac⟩
      · rw [decide_eq_true hnew] at hphysts
        obtain ⟨hcall, hphy', hup', hmac'⟩ :=
          linkStep_changed (s := s) (by rw [hpoll]; exact hphysts)
        rw [hpoll] at hphy'
        rw [if_neg hnew]
        refine ⟨hcall, ?_, ?_, hup', hmac'⟩
        · rw [hphy']
          exact ⟨rfl, true, hphysts⟩
        · rw [hphy']
          exact hold'

theorem linked_run {s : Eth} {phase : Phase} {last : LinkStatus} (h : s.Linked phase last)
    (miis : List Mii) :
    (outs linkStep s miis).filterMap id =
        (changes last (completed phase miis)).map LinkStatus.call ∧
      (final linkStep s miis).Linked (final Phase.next phase miis)
        ((completed phase miis).getLastD last) := by
  induction miis generalizing s phase last with
  | nil => exact ⟨rfl, h⟩
  | cons mii miis ih =>
    obtain ⟨hcall, hlinked⟩ := linkStep_linked h mii
    obtain ⟨hcalls, hfinal⟩ := ih hlinked
    have hreads : completed phase (mii :: miis) =
        ((phase.next mii).2.toList ++ completed (phase.next mii).1 miis) := by
      rw [completed, outs_cons, List.filterMap_cons]
      cases (phase.next mii).2 <;> rfl
    rw [outs_cons, final_cons, final_cons, List.filterMap_cons, hcall, hreads]
    cases hread : (phase.next mii).2 with
    | none =>
      rw [hread, Option.getD_none] at hcalls hfinal
      rw [Option.getD_none, if_pos rfl]
      exact ⟨hcalls, hfinal⟩
    | some new =>
      rw [hread, Option.getD_some] at hcalls hfinal
      rw [Option.getD_some, Option.toList_some, List.singleton_append, changes,
        List.getLastD_cons]
      refine ⟨?_, hfinal⟩
      by_cases hnew : new = last
      · rw [if_pos hnew, if_pos hnew, ← hnew]
        exact hcalls
      · rw [if_neg hnew, if_neg hnew]
        exact congrArg (new.call :: ·) hcalls

/-- **Every change of the link is passed on once**, in any run of the main loop: whenever the MII
is busy, and whatever the PHY says. -/
theorem link_reports (m : Mac) (miis : List Mii) :
    (outs linkStep { mac := m } miis).filterMap id =
      (changes .init (completed .start miis)).map LinkStatus.call :=
  (linked_run (linked_init m) miis).1

/-- **The link is what the last completed read says**, and while it is up the MAC is set to its
speed and duplex mode. -/
theorem link_mirrors (m : Mac) (miis : List Mii) :
    (final linkStep { mac := m } miis).linkUp =
        ((completed .start miis).getLastD .init).connected ∧
      (((completed .start miis).getLastD .init).connected = true →
        (final linkStep { mac := m } miis).mac.SetTo ((completed .start miis).getLastD .init)) :=
  have h := (linked_run (linked_init m) miis).2
  ⟨h.up, h.mac⟩

/-- A link at 10 Mbps half duplex; the MII is busy once. -/
example : (outs linkStep { mac := ⟨0, 0, 0, 0⟩ }
    [⟨false, fun _ => 0⟩, ⟨true, fun _ => 0⟩, ⟨false, fun _ => 4⟩,
      ⟨false, fun _ => 4⟩]).filterMap id = [.up false false] := by decide

end AdcUdpStream.Net
