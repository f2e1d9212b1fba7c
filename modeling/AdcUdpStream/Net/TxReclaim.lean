import AdcUdpStream.Net.TxRing

/-!
# Freeing sent pbufs

`lpc_tx_reclaim` frees the pbufs of the descriptors between the last one it saw
and the consume index. As long as the ring does not run a whole round ahead of it
(`KeepsUp`), every pbuf is freed once, in order and after it was sent
(`freed_in_order`). The two indexes do not tell a whole round from none: after `k`
descriptors only the last `k % 4` are freed, and the pbufs of the others are lost
(`reclaim_burst`).
-/

namespace AdcUdpStream.Net

open Ring Steps

/-! ## One call -/

theorem reclaim_spec {k n : Nat} (hk : k ≤ n) (hlt : k < lpcNumBuffTxdescs) {s : Tx}
    (hl : s.lpcLastTxIdx < lpcNumBuffTxdescs) {cidx : Nat}
    (hc : cidx = slot lpcNumBuffTxdescs s.lpcLastTxIdx k) :
    (lpcTxReclaimSt cidx n s).2 =
        (window s.txb lpcNumBuffTxdescs s.lpcLastTxIdx k).filterMap id ∧
      (lpcTxReclaimSt cidx n s).1.lpcLastTxIdx = cidx ∧
      ∀ i, k ≤ i → i < lpcNumBuffTxdescs →
        (lpcTxReclaimSt cidx n s).1.txb (slot lpcNumBuffTxdescs s.lpcLastTxIdx i) =
          s.txb (slot lpcNumBuffTxdescs s.lpcLastTxIdx i) := by
  induction n generalizing s k with
  | zero =>
    obtain rfl := Nat.le_zero.mp hk
    rw [slot_zero hl] at hc
    exact ⟨rfl, hc.symm, fun _ _ _ => rfl⟩
  | succ n ih =>
    rw [lpcTxReclaimSt]
    cases k with
    | zero =>
      rw [slot_zero hl] at hc
      rw [if_pos hc]
      exact ⟨rfl, hc.symm, fun _ _ _ => rfl⟩
    | succ k =>
      have hne : cidx ≠ s.lpcLastTxIdx := by
        intro he
        rw [hc, ← slot_zero hl, slot_slot] at he
        have := slot_inj (by omega) descs_pos he
        omega
      have hnext : next lpcNumBuffTxdescs s.lpcLastTxIdx < lpcNumBuffTxdescs := next_lt descs_pos
      obtain ⟨h1, h2, h3⟩ := ih (k := k) (s := { s with
        txb := Function.update s.txb s.lpcLastTxIdx none
        lpcLastTxIdx := next lpcNumBuffTxdescs s.lpcLastTxIdx })
        (Nat.le_of_succ_le_succ hk) (by omega) hnext (by rw [hc]; exact (slot_next hl).symm)
      rw [if_neg hne]
      dsimp only at h1 h2 h3 ⊢
      -- the emptied slot is not met again
      have hother : ∀ i, i < lpcNumBuffTxdescs - 1 →
          Function.update s.txb s.lpcLastTxIdx none
            (slot lpcNumBuffTxdescs (next lpcNumBuffTxdescs s.lpcLastTxIdx) i) =
          s.txb (slot lpcNumBuffTxdescs (next lpcNumBuffTxdescs s.lpcLastTxIdx) i) := by
        intro i hi
        apply Function.update_of_ne
        rw [slot_next hl]
        intro he
        rw [← slot_zero hl, slot_slot] at he
        have := slot_inj (by omega) descs_pos he
        omega
      refine ⟨?_, h2, fun i hi hi' => ?_⟩
      · rw [h1, window_pop _ hl, window_congr fun i hi => hother i (by omega)]
        cases s.txb s.lpcLastTxIdx with
        | none => rfl
        | some o => rfl
      · obtain ⟨m, rfl⟩ := Nat.exists_eq_succ_of_ne_zero (show i ≠ 0 by omega)
        rw [← slot_next hl]
        have := h3 m (by omega) (by omega)
        rw [this, hother m (by omega)]

/-! ## The books -/

def written (os : List TxOut) : List (Option Nat) :=
  os.filterMap fun
    | .wrote _ o => some o
    | _ => none

def freed (os : List TxOut) : List Nat :=
  os.flatMap fun
    | .freed l => l
    | _ => []

def sentOwners (os : List TxOut) : List Nat := ((written os).take (sent os).length).filterMap id

theorem written_append (os os' : List TxOut) : written (os ++ os') = written os ++ written os' :=
  List.filterMap_append

theorem freed_append (os os' : List TxOut) : freed (os ++ os') = freed os ++ freed os' :=
  List.flatMap_append

def Tx.lag (s : Tx) : Nat := fill lpcNumBuffTxdescs s.produceIndex s.lpcLastTxIdx

def Tx.done (s : Tx) : Nat := fill lpcNumBuffTxdescs s.consumeIndex s.lpcLastTxIdx

/-- A write does not close the round: the produce index stays behind `lpc_last_tx_idx`. -/
def KeepsUp (s : Tx) : TxEvent → Prop
  | .cpu => ∀ j, s.job = some j → j.filling = true →
    next lpcNumBuffTxdescs s.produceIndex ≠ s.lpcLastTxIdx
  | _ => True

/-- What was written is freed or still in `txb`; the entries freed are the first of those sent. -/
structure Books (s : Tx) (os : List TxOut) : Prop where
  inv : s.Inv
  order : s.lag = s.done + s.filled
  books : ∃ old, old.filterMap id = freed os ∧
    old ++ window s.txb lpcNumBuffTxdescs s.lpcLastTxIdx s.lag = written os ∧
    old.length + s.done = (sent os).length

theorem Tx.Inv.lag_lt {s : Tx} (h : s.Inv) : s.lag < lpcNumBuffTxdescs := fill_lt h.last h.produce

theorem Tx.Inv.produce_lag {s : Tx} (h : s.Inv) :
    s.produceIndex = slot lpcNumBuffTxdescs s.lpcLastTxIdx s.lag :=
  (slot_fill h.last h.produce).symm

theorem Tx.Inv.consume_done {s : Tx} (h : s.Inv) :
    s.consumeIndex = slot lpcNumBuffTxdescs s.lpcLastTxIdx s.done :=
  (slot_fill h.last h.consume).symm

section Moves

variable {s : Tx} {os : List TxOut}

theorem Books.other {s' : Tx} (h : Books s os) (hinv : s'.Inv) {o : TxOut}
    (h1 : written [o] = []) (h2 : sent [o] = []) (h3 : freed [o] = [])
    (htxb : s'.txb = s.txb) (hl : s'.lpcLastTxIdx = s.lpcLastTxIdx)
    (hp : s'.produceIndex = s.produceIndex) (hc : s'.consumeIndex = s.consumeIndex) :
    Books s' (os ++ [o]) := by
  obtain ⟨-, horder, old, hfreed, hold, hlen⟩ := h
  have hlag : s'.lag = s.lag := by rw [Tx.lag, hp, hl]; rfl
  have hdone : s'.done = s.done := by rw [Tx.done, hc, hl]; rfl
  have hfill : s'.filled = s.filled := by rw [Tx.filled, hp, hc]; rfl
  refine ⟨hinv, by rw [hlag, hdone, hfill, horder], old, ?_, ?_, ?_⟩
  · rw [freed_append, h3, List.append_nil, hfreed]
  · rw [written_append, h1, List.append_nil, hlag, htxb, hl, hold]
  · rw [sent_append, h2, List.append_nil, hdone, hlen]

theorem Books.write {j : Job} {q : Frag} {rest : List Frag} (h : Books s os)
    (hroom : s.filled + 1 < lpcNumBuffTxdescs) (hinv : (fillDesc s j q rest).Inv)
    (hup : next lpcNumBuffTxdescs s.produceIndex ≠ s.lpcLastTxIdx) (d : TxDesc) :
    Books (fillDesc s j q rest)
      (os ++ [.wrote d (if rest.isEmpty then some j.owner else none)]) := by
  obtain ⟨hs, horder, old, hfreed, hold, hlen⟩ := h
  have hlt := hs.lag_lt
  obtain ⟨hfill, -⟩ := fillDesc_pending j q rest hs hroom
  have hsucc : s.lag + 1 < lpcNumBuffTxdescs := by
    refine Nat.lt_of_le_of_ne hlt fun he => hup ?_
    rw [hs.produce_lag, next_slot descs_pos, he, slot_self, slot_zero hs.last]
  have hlag : (fillDesc s j q rest).lag = s.lag + 1 := by
    show fill _ (next _ s.produceIndex) s.lpcLastTxIdx = _
    rw [hs.produce_lag, next_slot descs_pos, fill_slot hs.last hsucc]
  have hdone : (fillDesc s j q rest).done = s.done := rfl
  refine ⟨hinv, by rw [hlag, hdone, hfill]; omega, old, ?_, ?_, ?_⟩
  · rw [freed_append, hfreed]
    exact (List.append_nil _).symm
  · have hpush : window (fillDesc s j q rest).txb lpcNumBuffTxdescs s.lpcLastTxIdx (s.lag + 1) =
        window s.txb lpcNumBuffTxdescs s.lpcLastTxIdx s.lag ++
          [if rest.isEmpty then some j.owner else none] := by
      show window (Function.update s.txb s.produceIndex _) _ _ _ = _
      nth_rewrite 1 [hs.produce_lag]
      exact window_push hlt _
    rw [written_append, ← hold, List.append_assoc, hlag]
    exact congrArg (old ++ ·) hpush
  · rw [sent_append, hdone, hlen]
    exact (congrArg List.length (List.append_nil _)).symm

theorem Books.send (h : Books s os) (hinv : s.advance.Inv)
    (hne : s.consumeIndex ≠ s.produceIndex) (d : TxDesc) :
    Books s.advance (os ++ [.sent d]) := by
  obtain ⟨hs, horder, old, hfreed, hold, hlen⟩ := h
  obtain ⟨-, hfill⟩ := send_pending hs hne
  have hlt := hs.lag_lt
  have hdone : s.advance.done = s.done + 1 := by
    show fill _ (next _ s.consumeIndex) s.lpcLastTxIdx = _
    rw [hs.consume_done, next_slot descs_pos, fill_slot hs.last (by omega)]
  have hlag : s.advance.lag = s.lag := rfl
  refine ⟨hinv, by rw [hlag, hdone]; omega, old, ?_, ?_, ?_⟩
  · rw [freed_append, hfreed]
    exact (List.append_nil _).symm
  · rw [written_append, hlag]
    exact hold.trans (List.append_nil _).symm
  · rw [sent_append, List.length_append, ← hlen, hdone]
    rfl

theorem Books.reclaim (h : Books s os)
    (hinv : (lpcTxReclaimSt s.consumeIndex lpcNumBuffTxdescs s).1.Inv) :
    Books (lpcTxReclaimSt s.consumeIndex lpcNumBuffTxdescs s).1
      (os ++ [.freed (lpcTxReclaimSt s.consumeIndex lpcNumBuffTxdescs s).2]) ∧
    (lpcTxReclaimSt s.consumeIndex lpcNumBuffTxdescs s).1.lpcLastTxIdx = s.consumeIndex := by
  obtain ⟨hs, horder, old, hfreed, hold, hlen⟩ := h
  have hlt := hs.lag_lt
  obtain ⟨hout, hlast, htxb⟩ := reclaim_spec (k := s.done) (n := lpcNumBuffTxdescs) (by omega)
    (by omega) hs.last hs.consume_done
  obtain ⟨txb, last, heq, -⟩ := reclaim_frame s.consumeIndex lpcNumBuffTxdescs s
  rw [heq] at hlast htxb hinv ⊢
  rw [hout]
  obtain rfl : last = s.consumeIndex := hlast
  have hdone : Tx.done { s with txb := txb, lpcLastTxIdx := s.consumeIndex } = 0 := fill_self
  have hwin : window s.txb lpcNumBuffTxdescs s.lpcLastTxIdx s.lag =
      window s.txb lpcNumBuffTxdescs s.lpcLastTxIdx s.done ++
        window txb lpcNumBuffTxdescs s.consumeIndex s.filled := by
    rw [horder, window_add, ← hs.consume_done]
    congr 1
    apply window_congr
    intro i hi
    rw [hs.consume_done, slot_slot]
    exact (htxb (s.done + i) (by omega) (by omega)).symm
  refine ⟨⟨hinv, by rw [hdone, Nat.zero_add]; rfl,
    old ++ window s.txb lpcNumBuffTxdescs s.lpcLastTxIdx s.done, ?_, ?_, ?_⟩, rfl⟩
  · rw [freed_append, List.filterMap_append, hfreed]
    exact congrArg (freed os ++ ·) (List.append_nil _).symm
  · rw [written_append, show ∀ l, written [.freed l] = [] from fun _ => rfl, List.append_nil,
      ← hold, hwin, List.append_assoc]
    rfl
  · rw [List.length_append, window_length, hlen, hdone, sent_append]
    exact (congrArg List.length (List.append_nil _)).symm

end Moves

theorem books_step (s : Tx) (os : List TxOut) (e : TxEvent) (h : Books s os) (hk : KeepsUp s e) :
    Books (txStep s e).1 (os ++ [(txStep s e).2]) := by
  have hinv := inv_step s e h.inv
  have hmove := txStep_move s e
  generalize txStep s e = r at hmove hinv ⊢
  cases hmove with
  | @writes j q rest hj hf hq =>
    have hroom := h.inv.room j hj hf
    rw [hq, List.length_cons] at hroom
    exact h.write (by omega) hinv (hk j hj hf) _
  | sends hne => exact h.send hinv hne _
  | reclaims hj => exact (h.reclaim hinv).1
  | _ => exact h.other hinv rfl rfl rfl rfl rfl rfl rfl

/-- **Every pbuf is freed once, in order, and not before it was sent**, over any run in which the
ring does not run a round ahead; right after a call of `lpc_tx_reclaim` none that was sent is
left. -/
theorem freed_in_order {s : Tx} (hs : s.Quiet) (es : List TxEvent)
    (hk : Along txStep KeepsUp s es) :
    freed (outs txStep s es) <+: sentOwners (outs txStep s es) ∧
      ((final txStep s es).lpcLastTxIdx = (final txStep s es).consumeIndex →
        freed (outs txStep s es) = sentOwners (outs txStep s es)) := by
  have hlag : s.lag = 0 := by rw [Tx.lag, hs.reclaimed, ← hs.sent, fill_self]
  have hdone : s.done = 0 := by rw [Tx.done, hs.reclaimed, fill_self]
  have hfill : s.filled = 0 := by rw [Tx.filled, hs.sent, fill_self]
  have h0 : Books s [] := by
    refine ⟨hs.inv, by rw [hlag, hdone, hfill], [], rfl, ?_, by rw [hdone]; rfl⟩
    rw [hlag]
    rfl
  have h := final_outs_inv_along (fun s os e => books_step s os e) h0 hk
  rw [List.nil_append] at h
  obtain ⟨-, horder, old, hfreed, hold, hlen⟩ := h
  generalize final txStep s es = t at *
  generalize outs txStep s es = os at *
  rw [sentOwners, ← hfreed, ← hold, ← hlen, List.take_append, List.filterMap_append,
    List.take_of_length_le (by omega)]
  refine ⟨List.prefix_append _ _, fun he => ?_⟩
  have h0 : t.done = 0 := by rw [Tx.done, he, fill_self]
  rw [h0, Nat.add_zero, Nat.sub_self, List.take_zero, List.filterMap_nil, List.append_nil]

/-- Two frames of two pbufs, with a call behind the first, one inside the second and one behind it. -/
def reclaimedPairs : List TxEvent :=
  [.output (.pair 1 7 8) none, .cpu, .cpu, .cpu, .dma, .dma, .reclaim, .output (.pair 2 9 10) none,
    .cpu, .cpu, .cpu, .dma, .reclaim, .dma, .reclaim]

theorem keepsUp_cpu {s : Tx} (h : next lpcNumBuffTxdescs s.produceIndex ≠ s.lpcLastTxIdx) :
    KeepsUp s .cpu := fun _ _ _ => h

theorem freed_in_order_pairs :
    freed (outs txStep lpcTxSetup reclaimedPairs) =
      sentOwners (outs txStep lpcTxSetup reclaimedPairs) := by
  refine (freed_in_order lpcTxSetup_quiet reclaimedPairs ?_).2 rfl
  exact ⟨trivial, keepsUp_cpu (by decide), keepsUp_cpu (by decide), keepsUp_cpu (by decide),
    trivial, trivial, trivial, trivial, keepsUp_cpu (by decide), keepsUp_cpu (by decide),
    keepsUp_cpu (by decide), trivial, trivial, trivial, trivial, trivial⟩

/-! ## A round ahead -/

def TxEvent.Unreclaimed : TxEvent → Prop
  | .reclaim => False
  | _ => True

/-- `txb` holds the last entries written since `lpc_tx_reclaim` was at `h`. -/
structure Unseen (h : Nat) (s : Tx) (os : List TxOut) : Prop where
  inv : s.Inv
  last : s.lpcLastTxIdx = h
  produce : s.produceIndex = slot lpcNumBuffTxdescs h (written os).length
  kept : ∀ m ≤ (written os).length, m ≤ lpcNumBuffTxdescs →
    window s.txb lpcNumBuffTxdescs (slot lpcNumBuffTxdescs h ((written os).length - m)) m =
      (written os).drop ((written os).length - m)

theorem Unseen.other {h : Nat} {s s' : Tx} {os : List TxOut} (hu : Unseen h s os) (hinv : s'.Inv)
    {o : TxOut} (ho : written [o] = []) (htxb : s'.txb = s.txb)
    (hl : s'.lpcLastTxIdx = s.lpcLastTxIdx) (hp : s'.produceIndex = s.produceIndex) :
    Unseen h s' (os ++ [o]) := by
  obtain ⟨-, hlast, hproduce, hkept⟩ := hu
  have hw : written (os ++ [o]) = written os := by rw [written_append, ho, List.append_nil]
  exact ⟨hinv, hl.trans hlast, by rw [hw, hp, hproduce], by rw [hw, htxb]; exact hkept⟩

theorem unseen_step {h : Nat} (s : Tx) (os : List TxOut) (e : TxEvent) (hu : Unseen h s os)
    (he : e.Unreclaimed) : Unseen h (txStep s e).1 (os ++ [(txStep s e).2]) := by
  have hinv := inv_step s e hu.inv
  have hmove := txStep_move s e
  generalize txStep s e = r at hmove hinv ⊢
  cases hmove with
  | @writes j q rest hj hf hq =>
    obtain ⟨hs, hlast, hproduce, hkept⟩ := hu
    have hw : ∀ d, written (os ++ [.wrote d (if rest.isEmpty then some j.owner else none)]) =
        written os ++ [if rest.isEmpty then some j.owner else none] := fun d => written_append ..
    refine ⟨hinv, hlast, ?_, fun m hm hmn => ?_⟩
    · show next _ s.produceIndex = _
      rw [hproduce, next_slot descs_pos, hw, List.length_append, List.length_singleton]
    · show window (Function.update s.txb s.produceIndex _) _ _ _ = _
      rw [hw, List.length_append, List.length_singleton] at hm ⊢
      cases m with
      | zero =>
        rw [window_zero, List.drop_of_length_le]
        rw [List.length_append, List.length_singleton]
        omega
      | succ m =>
        have hend : slot lpcNumBuffTxdescs h (written os).length =
            slot lpcNumBuffTxdescs (slot lpcNumBuffTxdescs h ((written os).length - m)) m := by
          rw [slot_slot, Nat.sub_add_cancel (by omega)]
        rw [Nat.add_sub_add_right, hproduce, hend, window_push hmn,
          hkept m (by omega) (by omega), List.drop_append_of_le_length (by omega)]
  | reclaims hj => exact he.elim
  | _ => exact hu.other hinv rfl rfl rfl rfl

theorem slot_mod (n h k : Nat) : slot n h k = slot n h (k % n) := by
  rw [slot, slot, Nat.add_mod_mod]

/-- **Whole rounds are lost.** Any run without `lpc_tx_reclaim` that ends with everything sent: the
call after it frees the pbufs of the last `k % 4` of the `k` descriptors, and sees nothing of the
ones before. -/
theorem reclaim_burst {s : Tx} (hs : s.Quiet) (es : List TxEvent)
    (hno : ∀ e ∈ es, e.Unreclaimed) (hj : (final txStep s es).job = none)
    (hd : (final txStep s es).consumeIndex = (final txStep s es).produceIndex) :
    (txStep (final txStep s es) .reclaim).2 = .freed (((written (outs txStep s es)).drop
        ((written (outs txStep s es)).length -
          (written (outs txStep s es)).length % lpcNumBuffTxdescs)).filterMap id) ∧
      (txStep (final txStep s es) .reclaim).1.Quiet := by
  have hlt := hs.inv.last
  have h0 : Unseen s.lpcLastTxIdx s [] := by
    refine ⟨hs.inv, rfl, ?_, fun m hm _ => ?_⟩
    · rw [← hs.sent, ← hs.reclaimed]
      exact (slot_zero hlt).symm
    · obtain rfl := Nat.le_zero.mp hm
      rfl
  have hu := final_outs_inv_along (Q := fun _ e => e.Unreclaimed)
    (fun s os e => unseen_step s os e) h0 (along_of_mem hno)
  rw [List.nil_append] at hu
  generalize final txStep s es = t at *
  generalize outs txStep s es = os at *
  obtain ⟨ht, hlast, hproduce, hkept⟩ := hu
  generalize hk : (written os).length = k at *
  have hmod : k % lpcNumBuffTxdescs < lpcNumBuffTxdescs := Nat.mod_lt _ descs_pos
  -- the entries of the last round begin where the call does
  have hstart : slot lpcNumBuffTxdescs s.lpcLastTxIdx (k - k % lpcNumBuffTxdescs) =
      t.lpcLastTxIdx := by
    rw [slot_mod, Nat.sub_mod_eq_zero_of_mod_eq (Nat.mod_mod ..).symm, slot_zero hlt, hlast]
  have hcidx : t.consumeIndex =
      slot lpcNumBuffTxdescs t.lpcLastTxIdx (k % lpcNumBuffTxdescs) := by
    rw [hd, hproduce, hlast, slot_mod]
  obtain ⟨hout, hl, -⟩ := reclaim_spec (Nat.le_of_lt hmod) hmod ht.last hcidx
  have hkeep := hkept (k % lpcNumBuffTxdescs) (Nat.mod_le ..) (Nat.le_of_lt hmod)
  rw [hstart] at hkeep
  have hstep : txStep t .reclaim =
      ((lpcTxReclaimSt t.consumeIndex lpcNumBuffTxdescs t).1,
        .freed (lpcTxReclaimSt t.consumeIndex lpcNumBuffTxdescs t).2) := by
    simp only [txStep, hj]
  have hinv := inv_step t .reclaim ht
  rw [hstep] at hinv ⊢
  obtain ⟨txb, last, heq, -⟩ := reclaim_frame t.consumeIndex lpcNumBuffTxdescs t
  rw [heq] at hl hinv ⊢
  exact ⟨by rw [hout, hkeep], hinv, hj, hd, hl⟩

def sendByte (owner : Nat) (x : UInt8) : List TxEvent :=
  [.output ⟨owner, [⟨0x20000000, [x], []⟩], List.cons_ne_nil _ _⟩ none, .cpu, .cpu, .dma]

theorem reclaim_burst_five :
    (txStep (final txStep lpcTxSetup ((List.range 5).flatMap fun n => sendByte n 7)) .reclaim).2 =
      .freed [4] :=
  (reclaim_burst lpcTxSetup_quiet _ (fun e he => by
    obtain ⟨n, -, he⟩ := List.mem_flatMap.mp he
    simp only [sendByte, List.mem_cons, List.not_mem_nil, or_false] at he
    rcases he with rfl | rfl | rfl | rfl <;> trivial) rfl rfl).1

end AdcUdpStream.Net
