import AdcUdpStream.Net.RxRing

/-!
# The memory of the receive ring

Where the pbufs of the ring are, and what the DMA may write to. Every pbuf that was
allocated is held by the ring, freed or passed to the stack, once (`rx_owned`). The
DMA writes to held pbufs only, if and only if the set-up found at most one pbuf
missing (`rx_setup_safe_iff`). A pbuf has 1536 bytes, or the length of a fragment that
was dropped from it for lack of memory (`rx_len_cases`). Less than a byte of data wraps
to a descriptor of 2048 bytes: the descriptors have a size their pbufs have room for
exactly as long as no such fragment is dropped (`rx_dma_bounded_iff`).
-/

namespace AdcUdpStream.Net

open Ring Steps

/-! ## Where the pbufs are -/

def Rx.heldIds (s : Rx) : List Nat :=
  (List.range lpcNumBuffRxdescs).filterMap fun i => (s.rxb i).map RxPbuf.id

/-- **No pbuf is lost, freed twice or freed after it was passed on**, over any run. -/
theorem rx_owned {avail : Nat} (havail : lpcNumBuffRxdescs ≤ avail + 1) {es : List RxEvent}
    (hes : Along rxStep Stocked (lpcRxSetup avail {}) es) :
    ((final rxStep (lpcRxSetup avail {}) es).heldIds ++
      (final rxStep (lpcRxSetup avail {}) es).freed ++
      (final rxStep (lpcRxSetup avail {}) es).passed).Perm
        (List.range (final rxStep (lpcRxSetup avail {}) es).allocated) := by
  obtain ⟨-, L, h⟩ := (setup_inv havail).run hes
  exact ((h.held.all.append_right _).append_right _).trans h.owned

theorem rx_owned_pair :
    ((final rxStep (lpcRxSetup 4 {}) [.dma 63 [], .dma 63 [], .input 1 true]).heldIds ++
      (final rxStep (lpcRxSetup 4 {}) [.dma 63 [], .dma 63 [], .input 1 true]).freed ++
      (final rxStep (lpcRxSetup 4 {}) [.dma 63 [], .dma 63 [], .input 1 true]).passed).Perm
        (List.range
          (final rxStep (lpcRxSetup 4 {}) [.dma 63 [], .dma 63 [], .input 1 true]).allocated) :=
  rx_owned (by decide) ⟨trivial, trivial, fun h => absurd h (by decide), trivial⟩

/-! ## What the DMA writes to -/

def DmaSafe (s : Rx) : RxEvent → Prop
  | .dma _ _ => next lpcNumBuffRxdescs s.produceIndex ≠ s.consumeIndex →
    ∃ p, s.rxb s.produceIndex = some p ∧ (s.prxd s.produceIndex).packet = p.id ∧
      p.id ∉ s.freed ∧ p.id ∉ s.passed
  | _ => True

theorem RxInv.dmaSafe {s : Rx} {q : RxQueue} {L : List RxPbuf} (h : RxInv s q L) (e : RxEvent) :
    DmaSafe s e := by
  cases e with
  | dma info frame =>
    intro hne
    have hroom : q.waiting.length + 1 < lpcNumBuffRxdescs := by
      by_contra hfull
      exact hne (h.full_iff.mpr hfull)
    obtain ⟨p, hp, hbuf, hdesc⟩ := h.produce_desc hroom
    have hmem : p.id ∈ L.map RxPbuf.id := List.mem_map_of_mem (List.mem_of_getElem? hp)
    have hnodup := h.owned.nodup_iff.mpr List.nodup_range
    rw [List.append_assoc] at hnodup
    have hgone : ¬ p.id ∈ s.freed ++ s.passed := List.disjoint_of_nodup_append hnodup hmem
    rw [List.mem_append, not_or] at hgone
    exact ⟨p, hbuf, by rw [hdesc]; rfl, hgone.1, hgone.2⟩
  | _ => trivial

theorem lpcRxSetup_held (avail : Nat) :
    Held (lpcRxSetup avail {}) 0 (fresh 0 (min avail lpcNumBuffRxdescs)) ∧
      (lpcRxSetup avail {}).consumeIndex = 0 ∧ (lpcRxSetup avail {}).produceIndex = 0 := by
  have h0 : Held { ({} : Rx) with
      consumeIndex := 0, rxFreeDescs := lpcNumBuffRxdescs, rxFillDescIndex := 0 } 0 [] :=
    ⟨rfl, rfl, rfl, rfl, fun i _ _ => rfl⟩
  obtain ⟨hcount, hheld, -, -, hsame⟩ := lpcRxQueue_spec h0 avail
  rw [List.nil_append, hcount] at hheld
  exact ⟨hheld, hsame.consumeIndex, hsame.produceIndex⟩

theorem dmas_produce (avail : Nat) (info : UInt32) (frame : List UInt8) {j : Nat}
    (hj : j < lpcNumBuffRxdescs) :
    (final rxStep (lpcRxSetup avail {}) (List.replicate j (.dma info frame))).rxb =
        (lpcRxSetup avail {}).rxb ∧
      (final rxStep (lpcRxSetup avail {}) (List.replicate j (.dma info frame))).consumeIndex = 0 ∧
      (final rxStep (lpcRxSetup avail {}) (List.replicate j (.dma info frame))).produceIndex =
        slot lpcNumBuffRxdescs 0 j := by
  obtain ⟨-, hc0, hp0⟩ := lpcRxSetup_held avail
  induction j with
  | zero => exact ⟨rfl, hc0, hp0⟩
  | succ j ih =>
    obtain ⟨hrxb, hc, hp⟩ := ih (by omega)
    rw [List.replicate_succ', final_append, final_cons, final_nil]
    generalize final rxStep (lpcRxSetup avail {}) (List.replicate j (.dma info frame)) = t at *
    have hne : ¬ next lpcNumBuffRxdescs t.produceIndex = t.consumeIndex := by
      rw [hp, hc, next_slot rxDescs_pos, ← slot_zero rxDescs_pos, slot_slot, Nat.zero_add]
      intro he
      have := slot_inj hj rxDescs_pos he
      omega
    simp only [rxStep, if_neg hne]
    exact ⟨hrxb, hc, by rw [rxDma, hp]; exact next_slot rxDescs_pos⟩

/-- **Set-ups that are safe.** The DMA never writes outside the pbufs of the ring, in any run whose
resets find enough memory, exactly if the set-up found at most one pbuf missing. -/
theorem rx_setup_safe_iff (avail : Nat) :
    (∀ es, Along rxStep Stocked (lpcRxSetup avail {}) es →
      Along rxStep DmaSafe (lpcRxSetup avail {}) es) ↔ lpcNumBuffRxdescs ≤ avail + 1 := by
  refine ⟨fun h => ?_, fun havail es hes => ?_⟩
  · by_contra hfew
    have hlt : avail < lpcNumBuffRxdescs := by omega
    -- the frame for the first descriptor without a pbuf
    have hall := h (List.replicate avail (.dma 0 []) ++ [.dma 0 []])
      ((along_of_mem (G := (· = .dma 0 [])) fun e he => by
        rw [← List.replicate_succ'] at he
        exact (List.mem_replicate.mp he).2).imp fun s e he => by rw [he]; trivial)
    obtain ⟨hrxb, hc, hp⟩ := dmas_produce avail 0 [] hlt
    have hlast := ((along_append _ _ _).mp hall).2.1
    generalize final rxStep (lpcRxSetup avail {}) (List.replicate avail (.dma 0 [])) = t at *
    have hne : next lpcNumBuffRxdescs t.produceIndex ≠ t.consumeIndex := by
      rw [hp, hc, next_slot rxDescs_pos, ← slot_zero rxDescs_pos, slot_slot, Nat.zero_add]
      intro he
      have := slot_inj (by omega) rxDescs_pos he
      omega
    obtain ⟨p, hbuf, -⟩ := hlast hne
    rw [hrxb, hp, (lpcRxSetup_held avail).1.empty avail (by simp) hlt] at hbuf
    cases hbuf
  · refine along_of_inv (I := fun s => ∃ q L, RxInv s q L) (Q := Stocked) ?_ ?_
      ⟨_, _, setup_inv havail⟩ hes
    · rintro s e ⟨q, L, h⟩ he
      obtain ⟨-, L', h'⟩ := rx_step h he
      exact ⟨_, L', h'⟩
    · rintro s e ⟨q, L, h⟩ -
      exact h.dmaSafe e

/-! ## The sizes of the descriptors -/

/-- Every descriptor with a pbuf is made from it, and the length of the pbuf has `P`. -/
def Described (P : Nat → Prop) (s : Rx) : Prop :=
  ∀ i p, s.rxb i = some p → s.prxd i = p.desc ∧ P p.len

section Described

variable {P : Nat → Prop} {s : Rx}

theorem Described.push (h : Described P s) {p : RxPbuf} (hp : P p.len) :
    Described P (lpcRxqueuePbuf s p) := by
  intro i p' hi
  by_cases he : i = s.rxFillDescIndex
  · subst he
    simp only [lpcRxqueuePbuf, Function.update_self, Option.some.injEq] at hi ⊢
    subst hi
    exact ⟨rfl, hp⟩
  · simp only [lpcRxqueuePbuf, Function.update_of_ne he] at hi ⊢
    exact h i p' hi

theorem Described.take (h : Described P s) : Described P (rxTake s) := by
  intro i p hi
  by_cases he : i = s.consumeIndex
  · subst he
    simp only [rxTake, Function.update_self] at hi
    cases hi
  · simp only [rxTake, Function.update_of_ne he] at hi
    exact h i p hi

theorem Described.queue (h : Described P s) (hfull : P enetEthMaxFlen) (avail : Nat) :
    Described P (lpcRxQueue avail s).1 := by
  induction avail generalizing s with
  | zero => exact h
  | succ avail ih =>
    rw [lpcRxQueue]
    split
    · have hpush := Described.push (s := { s with allocated := s.allocated + 1 })
        (p := ⟨s.allocated, enetEthMaxFlen⟩) h hfull
      exact ih hpush
    · exact h

/-- **One call**: new pbufs have their full length, and one that is queued again for lack of memory
the length of its frame. -/
theorem Described.input (h : Described P s) (hfull : P enetEthMaxFlen) {avail : Nat}
    {accepts : Bool} (hlen : ∀ n, (lpcEnetifInput avail accepts s).2 = .noMemory n → P n) :
    Described P (lpcEnetifInput avail accepts s).1 := by
  unfold lpcEnetifInput lpcLowLevelInput at *
  by_cases hov : s.rxOverrun = true
  · simp only [if_pos hov]
    exact Described.queue (fun i p hi => by cases hi) hfull avail
  · rw [if_neg hov] at hlen ⊢
    by_cases he : s.consumeIndex = s.produceIndex
    · rw [if_pos he]
      exact h
    · rw [if_neg he] at hlen ⊢
      cases hbuf : s.rxb s.consumeIndex with
      | none => exact h
      | some p =>
        simp only [hbuf] at hlen ⊢
        by_cases herr : s.prxs s.consumeIndex &&& enetRinfoErrors ≠ 0
        · rw [if_pos herr]
          exact h.take.push (h _ p hbuf).2
        · rw [if_neg herr] at hlen ⊢
          by_cases hk : (lpcRxQueue avail (rxTake s)).2 = 0
          · rw [if_pos hk] at hlen ⊢
            exact (h.take.queue hfull avail).push (hlen _ rfl)
          · rw [if_neg hk]
            dsimp only
            split
            · exact h.take.queue hfull avail
            · exact h.take.queue hfull avail

theorem Described.run (h : Described P s) (hfull : P enetEthMaxFlen) (es : List RxEvent) :
    Described (fun n => P n ∨ .noMemory n ∈ outs rxStep s es) (final rxStep s es) := by
  have hstep : ∀ s os e, Described (fun n => P n ∨ .noMemory n ∈ os) s →
      Described (fun n => P n ∨ .noMemory n ∈ os ++ [(rxStep s e).2]) (rxStep s e).1 := by
    intro s os e h
    have h' : Described (fun n => P n ∨ .noMemory n ∈ os ++ [(rxStep s e).2]) s :=
      fun i p hi => ⟨(h i p hi).1, (h i p hi).2.imp_right fun hm => List.mem_append_left _ hm⟩
    cases e with
    | dma info frame =>
      by_cases hne : next lpcNumBuffRxdescs s.produceIndex = s.consumeIndex
      · simp only [rxStep, if_pos hne] at h' ⊢
        exact h'
      · simp only [rxStep, if_neg hne] at h' ⊢
        exact h'
    | overrun => exact h'
    | input av acc =>
      refine h'.input (.inl hfull) fun n hn => .inr ?_
      rw [show (rxStep s (.input av acc)).2 = .noMemory n from hn]
      exact List.mem_append_right _ (List.mem_singleton_self _)
  have h0 : Described (fun n => P n ∨ RxOut.noMemory n ∈ []) s :=
    fun i p hi => ⟨(h i p hi).1, .inl (h i p hi).2⟩
  have := final_outs_inv hstep h0 es
  rwa [List.nil_append] at this

theorem described_setup (avail : Nat) :
    Described (fun n => n = enetEthMaxFlen) (lpcRxSetup avail {}) := by
  refine Described.queue (P := fun n => n = enetEthMaxFlen) (fun i p hi => ?_) rfl avail
  cases hi

end Described

/-- **The lengths of the pbufs.** In every run from any set-up a descriptor is that of its pbuf, and
the pbuf has its 1536 bytes or the length of a fragment that was dropped for lack of memory. -/
theorem rx_len_cases (avail : Nat) (es : List RxEvent) :
    Described (fun n => n = enetEthMaxFlen ∨
        .noMemory n ∈ outs rxStep (lpcRxSetup avail {}) es)
      (final rxStep (lpcRxSetup avail {}) es) :=
  (described_setup avail).run rfl es

/-! ## What the descriptors let the DMA write -/

/-- The MAC stores no more than the size of the descriptor: a longer frame comes in fragments, and
the last one can have any length. -/
def MacStores (s : Rx) : RxEvent → Prop
  | .dma info _ => next lpcNumBuffRxdescs s.produceIndex ≠ s.consumeIndex →
    enetRinfoSize info ≤ (s.prxd s.produceIndex).size + 1
  | _ => True

/-- A fragment that is dropped for lack of memory has more than four bytes. -/
def DropsLong (s : Rx) : RxEvent → Prop
  | .input avail _ => avail = 0 → s.rxOverrun = false → s.consumeIndex ≠ s.produceIndex →
    s.prxs s.consumeIndex &&& enetRinfoErrors = 0 → 5 ≤ enetRinfoSize (s.prxs s.consumeIndex)
  | _ => True

/-- A descriptor with a pbuf points to it, with a size its 1536 bytes have room for. -/
def DescsInside (s : Rx) : Prop :=
  ∀ i p, s.rxb i = some p → (s.prxd i).packet = p.id ∧ (s.prxd i).size + 1 ≤ enetEthMaxFlen

theorem rxLength_bounds {info : UInt32} (h1 : 5 ≤ enetRinfoSize info)
    (h2 : enetRinfoSize info ≤ enetEthMaxFlen) :
    1 ≤ rxLength info ∧ rxLength info ≤ enetEthMaxFlen := by
  have hmax : enetEthMaxFlen = 1536 := rfl
  rw [rxLength, show enetRinfoSize info + 0xFFFC = enetRinfoSize info - 4 + 0x10000 by omega,
    Nat.add_mod_right, Nat.mod_eq_of_lt (by omega)]
  omega

theorem enetRctrlSize_succ {n : Nat} (h1 : 1 ≤ n) (h2 : n ≤ 0x800) : enetRctrlSize n + 1 = n := by
  rw [enetRctrlSize, if_neg (by omega), Nat.mod_eq_of_lt (by omega)]
  omega

/-- The length of a fragment of one to four bytes wraps, or is 0. -/
theorem rxLength_short {info : UInt32} (h : enetRinfoSize info < 5) :
    enetEthMaxFlen < enetRctrlSize (rxLength info) + 1 := by
  have hpos : 1 ≤ enetRinfoSize info := Nat.succ_pos _
  have hmax : enetEthMaxFlen = 1536 := rfl
  unfold rxLength enetRctrlSize
  split
  · omega
  · omega

/-- The ring is a queue of fragments its descriptors had room for, and no descriptor has more than
1536 bytes. -/
structure Bounded (s : Rx) (q : RxQueue) : Prop where
  queue : ∃ L, RxInv s q L
  sizes : ∀ f ∈ q.waiting, enetRinfoSize f.1 ≤ enetEthMaxFlen
  descs : Described (fun n => 1 ≤ n ∧ n ≤ enetEthMaxFlen) s

section Bounded

variable {s : Rx} {q : RxQueue} {e : RxEvent}

theorem Bounded.inside (h : Bounded s q) : DescsInside s := by
  intro i p hp
  obtain ⟨hdesc, h1, h2⟩ := h.descs i p hp
  have hmax : enetEthMaxFlen = 1536 := rfl
  rw [hdesc]
  exact ⟨rfl, (enetRctrlSize_succ h1 (by omega)).le.trans h2⟩

theorem Bounded.noMemory (h : Bounded s q) {avail : Nat} {accepts : Bool}
    (hs : Stocked s (.input avail accepts)) (hd : DropsLong s (.input avail accepts)) (n : Nat)
    (hn : (lpcEnetifInput avail accepts s).2 = .noMemory n) : 1 ≤ n ∧ n ≤ enetEthMaxFlen := by
  obtain ⟨L, hinv⟩ := h.queue
  have hout : (queueStep q (.input avail accepts)).2 = .noMemory n :=
    (rx_step hinv hs).1.symm.trans hn
  simp only [queueStep] at hout
  split at hout
  · cases hout
  · next hov =>
    cases hw : q.waiting with
    | nil =>
      rw [hw] at hout
      cases hout
    | cons f rest =>
      obtain ⟨p, L', -, hne, -, hinfo, -, -⟩ := hinv.first hw
      simp only [hw, frameOut] at hout
      split at hout
      · cases hout
      · next herr =>
        split at hout
        · next hav =>
          obtain rfl := RxOut.noMemory.inj hout
          have hfive := hd hav (hinv.overrun.trans (Bool.not_eq_true _ ▸ hov)) hne
            (by rw [hinfo]; exact not_not.mp herr)
          rw [hinfo] at hfive
          exact rxLength_bounds hfive (h.sizes f (by rw [hw]; exact List.mem_cons_self ..))
        · split at hout <;> cases hout

theorem Bounded.step (h : Bounded s q) (hs : Stocked s e) (hm : MacStores s e)
    (hd : DropsLong s e) : Bounded (rxStep s e).1 (queueStep q e).1 := by
  obtain ⟨L, hinv⟩ := h.queue
  refine ⟨(rx_step hinv hs).2, ?_, ?_⟩
  · cases e with
    | dma info frame =>
      simp only [queueStep]
      split
      · next hroom =>
        obtain ⟨p, -, hp, -⟩ := hinv.produce_desc hroom
        have hsize := hm fun he => hinv.full_iff.mp he hroom
        have hdesc := (h.inside _ p hp).2
        intro f hf
        rcases List.mem_append.mp hf with hf | hf
        · exact h.sizes f hf
        · rw [List.mem_singleton.mp hf]
          exact hsize.trans hdesc
      · exact h.sizes
    | overrun => exact h.sizes
    | input avail accepts =>
      simp only [queueStep]
      split
      · intro f hf
        cases hf
      · cases hw : q.waiting with
        | nil => exact h.sizes
        | cons f rest =>
          intro f' hf'
          exact h.sizes f' (by rw [hw]; exact List.mem_cons_of_mem _ hf')
  · cases e with
    | dma info frame =>
      simp only [rxStep]
      split
      · exact h.descs
      · exact h.descs
    | overrun => exact h.descs
    | input avail accepts =>
      exact h.descs.input ⟨by decide, le_rfl⟩ (h.noMemory hs hd)

/-- A short fragment that is dropped leaves a descriptor of 2045 to 2048 bytes. -/
theorem Bounded.dropsLong (h : Bounded s q) (hinside : DescsInside (rxStep s e).1) :
    DropsLong s e := by
  cases e with
  | input avail accepts =>
    intro hav hov hne herr
    subst hav
    by_contra hshort
    obtain ⟨L, hinv⟩ := h.queue
    cases hw : q.waiting with
    | nil =>
      have he := hinv.produce_eq
      rw [hw, List.length_nil, slot_zero hinv.consume] at he
      exact hne he.symm
    | cons f rest =>
      obtain ⟨p, L', -, -, hbuf, -, -, -⟩ := hinv.first hw
      have hnone : lpcRxQueue 0 (rxTake s) = (rxTake s, 0) := rfl
      have hnext : (rxStep s (.input 0 accepts)).1 = incRxConsumeIndex
          (lpcRxqueuePbuf (rxTake s) ⟨p.id, rxLength (s.prxs s.consumeIndex)⟩) := by
        simp only [rxStep, lpcEnetifInput, lpcLowLevelInput, hov, hne, hbuf, herr, hnone,
          Bool.false_eq_true, ne_eq, not_true_eq_false, ↓reduceIte]
      rw [hnext] at hinside
      have hsize := (hinside (rxTake s).rxFillDescIndex
        ⟨p.id, rxLength (s.prxs s.consumeIndex)⟩ (Function.update_self ..)).2
      have hwide := rxLength_short (Nat.lt_of_not_le hshort)
      simp only [incRxConsumeIndex, lpcRxqueuePbuf, Function.update_self, RxPbuf.desc] at hsize
      omega
  | dma info frame => trivial
  | overrun => trivial

end Bounded

/-- **When the descriptors stay inside the pbufs.** For a ring that was set up with at most one pbuf
missing, in every run whose resets find as much and in which the MAC stores what its descriptors
have room for: after every step each descriptor with a pbuf points to it and has a size it has room
for, if and only if no fragment of one to four bytes is dropped for lack of memory. -/
theorem rx_dma_bounded_iff {avail : Nat} (havail : lpcNumBuffRxdescs ≤ avail + 1)
    {es : List RxEvent}
    (hes : Along rxStep (fun s e => Stocked s e ∧ MacStores s e) (lpcRxSetup avail {}) es) :
    Along rxStep (fun s e => DescsInside (rxStep s e).1) (lpcRxSetup avail {}) es ↔
      Along rxStep DropsLong (lpcRxSetup avail {}) es := by
  have hstart : ∃ q, Bounded (lpcRxSetup avail {}) q := by
    refine ⟨{}, ⟨_, setup_inv havail⟩, fun f hf => (by cases hf), fun i p hp => ?_⟩
    obtain ⟨hdesc, hlen⟩ := described_setup avail i p hp
    rw [hlen]
    exact ⟨hdesc, by decide, le_rfl⟩
  have hiff : Along rxStep (fun s e => (Stocked s e ∧ MacStores s e) ∧ DescsInside (rxStep s e).1)
        (lpcRxSetup avail {}) es ↔
      Along rxStep (fun s e => (Stocked s e ∧ MacStores s e) ∧ DropsLong s e)
        (lpcRxSetup avail {}) es := by
    refine along_congr (I := fun s => ∃ q, Bounded s q) ?_ ?_ hstart es
    · rintro s e ⟨q, h⟩ ⟨⟨hs, hm⟩, hinside⟩
      exact ⟨_, h.step hs hm (h.dropsLong hinside)⟩
    · rintro s e ⟨q, h⟩
      exact and_congr_right fun hg => ⟨h.dropsLong, fun hd => (h.step hg.1 hg.2 hd).inside⟩
  exact ⟨fun h => ((along_and _ _).mp (hiff.mp ((along_and _ _).mpr ⟨hes, h⟩))).2,
    fun h => ((along_and _ _).mp (hiff.mpr ((along_and _ _).mpr ⟨hes, h⟩))).2⟩

/-- Four frames: the first is dropped for lack of memory and leaves a descriptor of 60 bytes; a
frame of 64 comes to it in two fragments, and the second is dropped. -/
def fragments : List RxEvent :=
  [.dma 63 [], .input 0 true, .dma 63 [], .input 1 true, .dma 63 [], .input 1 true, .dma 63 [],
    .input 1 true, .dma 59 [], .dma 3 [], .input 1 true, .input 0 true]

/-- The last call leaves a descriptor of 2048 bytes. -/
theorem rx_dma_bounded_iff_fragments :
    ¬ Along rxStep (fun s e => DescsInside (rxStep s e).1) (lpcRxSetup 4 {}) fragments := by
  intro h
  have hes : Along rxStep (fun s e => Stocked s e ∧ MacStores s e) (lpcRxSetup 4 {}) fragments :=
    ⟨⟨trivial, fun _ => by decide⟩, ⟨fun h => absurd h (by decide), trivial⟩,
      ⟨trivial, fun _ => by decide⟩, ⟨fun h => absurd h (by decide), trivial⟩,
      ⟨trivial, fun _ => by decide⟩, ⟨fun h => absurd h (by decide), trivial⟩,
      ⟨trivial, fun _ => by decide⟩, ⟨fun h => absurd h (by decide), trivial⟩,
      ⟨trivial, fun _ => by decide⟩, ⟨trivial, fun _ => by decide⟩,
      ⟨fun h => absurd h (by decide), trivial⟩, ⟨fun h => absurd h (by decide), trivial⟩, trivial⟩
  obtain ⟨-, -, -, -, -, -, -, -, -, -, -, hlast, -⟩ := (rx_dma_bounded_iff (by decide) hes).mp h
  exact absurd (hlast rfl (by decide) (by decide) (by decide)) (by decide)

end AdcUdpStream.Net
