import AdcUdpStream.Net.TxRing

/-!
# Waiting for transmit descriptors

`low_level_output` waits until there are as many free descriptors as the chain has
pbufs, and one descriptor always stays free. So a chain that needs them all waits
for ever (`output_blocks`), and any shorter one is queued once the DMA has sent
what was pending (`output_returns`).
-/

namespace AdcUdpStream.Net

open Ring Steps

/-- **A chain that needs all descriptors blocks for ever.** -/
theorem output_blocks {s : Tx} (hj : s.job = none) {p : Chain} (hsafe : p.notdmasafe = 0)
    (hbig : lpcNumBuffTxdescs ≤ p.pbufClen) (np : Option (Nat × Nat)) (es : List TxEvent) :
    (final txStep s (.output p np :: es)).job = some ⟨p.frags, p.owner, false⟩ := by
  have hfirst : (txStep s (.output p np)).1.job = some ⟨p.frags, p.owner, false⟩ := by
    simp only [txStep, hj, queuedChain, hsafe, ↓reduceIte]
  rw [final_cons]
  refine final_inv_of_step (I := fun s : Tx => s.job = some ⟨p.frags, p.owner, false⟩) ?_ es hfirst
  intro s e h
  have hmove := txStep_move s e
  generalize txStep s e = r at hmove ⊢
  cases hmove with
  | stays => exact h
  | accepts hj _ => rw [h] at hj; cases hj
  | fails hj _ => exact h
  | @starts j hj hf hr =>
    -- at most `lpcNumBuffTxdescs - 1` descriptors are ever ready
    obtain rfl := Option.some.inj (h.symm.trans hj)
    have hlt : lpcTxReady s ≤ lpcNumBuffTxdescs - 1 := Nat.sub_le _ _
    have hpos := descs_pos
    exact absurd (Nat.le_trans (Nat.le_trans hbig hr) hlt) (by omega)
  | @writes j q rest hj hf hq =>
    obtain rfl := Option.some.inj (h.symm.trans hj)
    cases hf
  | sends hne => exact h
  | reclaims hj => rw [h] at hj; cases hj

def fourPbufs : Chain where
  owner := 1
  frags := List.replicate 4 ⟨0x20000000, [0], []⟩
  frags_ne := List.cons_ne_nil _ _

theorem output_blocks_four :
    (final txStep lpcTxSetup [.output fourPbufs none, .cpu, .dma, .cpu, .cpu]).job =
      some ⟨fourPbufs.frags, 1, false⟩ :=
  output_blocks rfl (by decide) (by decide) none _

/-- The steps of the processor that the call under way still needs. -/
def Tx.need (s : Tx) : Nat :=
  match s.job with
  | none => 0
  | some j => if j.filling then j.frags.length else j.frags.length + 1

/-- The call under way does not have to wait. -/
def Tx.Ready (s : Tx) : Prop :=
  ∀ j, s.job = some j → j.filling = false → j.frags.length ≤ lpcTxReady s

def TxEvent.isCpu : TxEvent → Bool
  | .cpu => true
  | _ => false

def TxEvent.isDma : TxEvent → Bool
  | .dma => true
  | _ => false

/-- The processor is inside the driver: it makes no other call. -/
def TxEvent.Inside : TxEvent → Prop
  | .output _ _ => False
  | _ => True

/-- **Where the call does not wait every step of the processor brings it further**, and no step of
the DMA sets it back. -/
theorem ready_step {s : Tx} (h : s.Inv) (hr : s.Ready) {e : TxEvent} (he : e.Inside) :
    (txStep s e).1.Ready ∧ (txStep s e).1.need ≤ s.need - if e.isCpu then 1 else 0 := by
  have hmove := txStep_move s e
  generalize txStep s e = r at hmove ⊢
  cases hmove with
  | stays hstuck =>
    refine ⟨hr, ?_⟩
    cases e with
    | cpu =>
      have hnone : s.job = none := by
        cases hj : s.job with
        | none => rfl
        | some j =>
          rcases hstuck j hj with ⟨-, hq⟩ | ⟨hf, hlt⟩
          · exact absurd hq (h.frags j hj)
          · exact absurd (hr j hj hf) (Nat.not_le.mpr hlt)
      simp [Tx.need, hnone]
    | _ => exact Nat.le_refl _
  | accepts hj hc => exact he.elim
  | fails hj hc => exact he.elim
  | @starts j hj hf hle =>
    refine ⟨fun j' hj' hf' => ?_, ?_⟩
    · obtain rfl := Option.some.inj hj'
      cases hf'
    · simp [Tx.need, hj, hf, TxEvent.isCpu]
  | @writes j q rest hj hf hq =>
    refine ⟨fun j' hj' hf' => ?_, ?_⟩
    · have hj' : (if rest.isEmpty then none else some { j with frags := rest }) = some j' := hj'
      split at hj'
      · cases hj'
      · obtain rfl := Option.some.inj hj'
        rw [show j.filling = false from hf'] at hf
        cases hf
    · cases rest with
      | nil => exact Nat.zero_le _
      | cons r rest => simp [Tx.need, fillDesc, hj, hf, hq, TxEvent.isCpu]
  | sends hne =>
    obtain ⟨-, hfill⟩ := send_pending h hne
    refine ⟨fun j hj hf => ?_, Nat.le_refl _⟩
    have hle : j.frags.length ≤ lpcNumBuffTxdescs - 1 - s.filled := hr j hj hf
    show j.frags.length ≤ lpcNumBuffTxdescs - 1 - s.advance.filled
    omega
  | reclaims hj =>
    obtain ⟨txb, last, heq, -⟩ := reclaim_frame s.consumeIndex lpcNumBuffTxdescs s
    rw [heq]
    exact ⟨hr, Nat.le_refl _⟩

theorem ready_run {s : Tx} (h : s.Inv) (hr : s.Ready) {es : List TxEvent}
    (hes : ∀ e ∈ es, e.Inside) (hneed : s.need ≤ es.countP TxEvent.isCpu) :
    (final txStep s es).need = 0 := by
  induction es generalizing s with
  | nil => exact Nat.le_zero.mp hneed
  | cons e es ih =>
    obtain ⟨he, hes⟩ := List.forall_mem_cons.mp hes
    obtain ⟨hr', hle⟩ := ready_step h hr he
    rw [List.countP_cons] at hneed
    exact ih (inv_step s e h) hr' hes (by omega)

theorem fits_step {s : Tx} {n : Nat} (h : ∀ j, s.job = some j → j.frags.length < n) {e : TxEvent}
    (he : e.Inside) : ∀ j, (txStep s e).1.job = some j → j.frags.length < n := by
  have hmove := txStep_move s e
  generalize txStep s e = r at hmove ⊢
  cases hmove with
  | stays => exact h
  | accepts hj hc => exact he.elim
  | fails hj hc => exact he.elim
  | @starts j hj hf hle =>
    intro j' hj'
    obtain rfl := Option.some.inj hj'
    exact h j hj
  | @writes j q rest hj hf hq =>
    intro j' hj'
    have hlen := h j hj
    rw [hq, List.length_cons] at hlen
    have hj' : (if rest.isEmpty then none else some { j with frags := rest }) = some j' := hj'
    split at hj'
    · cases hj'
    · obtain rfl := Option.some.inj hj'
      exact Nat.lt_of_succ_lt hlen
  | sends hne => exact h
  | reclaims hj =>
    obtain ⟨txb, last, heq, -⟩ := reclaim_frame s.consumeIndex lpcNumBuffTxdescs s
    rw [heq]
    exact h

theorem wait_step {s : Tx} (h : s.Inv) (hr : ¬ s.Ready) {e : TxEvent} (he : e.Inside) :
    (txStep s e).1.job = s.job ∧
      (txStep s e).1.filled + (if e.isDma then 1 else 0) ≤ max s.filled 1 := by
  have hj : ∃ j, s.job = some j ∧ j.filling = false ∧ lpcTxReady s < j.frags.length := by
    by_contra hno
    refine hr fun j hj hf => ?_
    by_contra hlt
    exact hno ⟨j, hj, hf, Nat.not_le.mp hlt⟩
  obtain ⟨j, hj, hf, hlt⟩ := hj
  have hmove := txStep_move s e
  generalize txStep s e = r at hmove ⊢
  cases hmove with
  | stays hstuck =>
    refine ⟨rfl, ?_⟩
    cases e with
    | dma =>
      have h0 : s.filled = 0 := by rw [Tx.filled, show s.consumeIndex = s.produceIndex from hstuck,
        fill_self]
      rw [h0]
      exact Nat.le_refl _
    | _ => exact Nat.le_max_left ..
  | accepts hj' hc => exact he.elim
  | fails hj' hc => exact he.elim
  | @starts j' hj' hf' hle =>
    obtain rfl := Option.some.inj (hj.symm.trans hj')
    exact absurd hle (Nat.not_le.mpr hlt)
  | @writes j' q rest hj' hf' hq =>
    obtain rfl := Option.some.inj (hj.symm.trans hj')
    rw [hf] at hf'
    cases hf'
  | sends hne =>
    obtain ⟨-, hfill⟩ := send_pending h hne
    refine ⟨rfl, ?_⟩
    rw [hfill]
    exact Nat.le_max_left ..
  | reclaims hj' =>
    rw [hj] at hj'
    cases hj'

theorem ready_of_filled {s : Tx} (hfit : ∀ j, s.job = some j → j.frags.length < lpcNumBuffTxdescs)
    (h0 : s.filled = 0) : s.Ready := by
  intro j hj _
  have := hfit j hj
  show j.frags.length ≤ lpcNumBuffTxdescs - 1 - s.filled
  omega

theorem drain_run {s : Tx} (h : s.Inv)
    (hfit : ∀ j, s.job = some j → j.frags.length < lpcNumBuffTxdescs) {es : List TxEvent}
    (hes : ∀ e ∈ es, e.Inside) (hdma : s.Ready ∨ s.filled ≤ es.countP TxEvent.isDma) :
    (final txStep s es).Ready ∧ (final txStep s es).need ≤ s.need := by
  induction es generalizing s with
  | nil => exact ⟨hdma.elim id fun h0 => ready_of_filled hfit (Nat.le_zero.mp h0), Nat.le_refl _⟩
  | cons e es ih =>
    obtain ⟨he, hes⟩ := List.forall_mem_cons.mp hes
    have hinv := inv_step s e h
    rw [final_cons]
    by_cases hr : s.Ready
    · obtain ⟨hr', hle⟩ := ready_step h hr he
      obtain ⟨h1, h2⟩ := ih hinv (fits_step hfit he) hes (.inl hr')
      exact ⟨h1, by omega⟩
    · obtain ⟨hj, hfill⟩ := wait_step h hr he
      have hcount := hdma.resolve_left hr
      have hpos : s.filled ≠ 0 := fun h0 => hr (ready_of_filled hfit h0)
      have hneed : (txStep s e).1.need = s.need := by rw [Tx.need, Tx.need, hj]
      rw [max_eq_left (by omega)] at hfill
      rw [List.countP_cons] at hcount
      obtain ⟨h1, h2⟩ := ih hinv (by rwa [hj]) hes (.inr (by omega))
      exact ⟨h1, by omega⟩

/-- **A chain of fewer pbufs is queued**, in every interleaving in which the DMA sends what was
pending and the processor then takes one step for each pbuf and one more. -/
theorem output_returns {s : Tx} (h : s.Inv) (hj : s.job = none) {p c : Chain}
    {np : Option (Nat × Nat)} (hc : queuedChain p np = some c)
    (hfit : c.pbufClen < lpcNumBuffTxdescs) {es es' : List TxEvent}
    (hes : ∀ e ∈ es ++ es', e.Inside) (hdma : s.filled ≤ es.countP TxEvent.isDma)
    (hcpu : c.pbufClen + 1 ≤ es'.countP TxEvent.isCpu) :
    (final txStep s (.output p np :: es ++ es')).job = none := by
  have hstep : (txStep s (.output p np)).1 = { s with job := some ⟨c.frags, c.owner, false⟩ } := by
    simp only [txStep, hj, hc]
  have hinv := inv_step s (.output p np) h
  rw [List.cons_append, final_cons, final_append]
  rw [hstep] at hinv ⊢
  have hinside : ∀ e ∈ es, e.Inside := fun e he => hes e (List.mem_append_left _ he)
  obtain ⟨hr, hneed⟩ := drain_run hinv (fun j hj' => by
      obtain rfl := Option.some.inj hj'
      exact hfit)
    hinside (.inr hdma)
  have hinv' := final_inv_of_step (I := Tx.Inv) (fun s e h => inv_step s e h) es hinv
  have hzero := ready_run hinv' hr (fun e he => hes e (List.mem_append_right _ he))
    (Nat.le_trans hneed hcpu)
  have hfr := (final_inv_of_step (I := Tx.Inv) (fun s e h => inv_step s e h) es' hinv').frags
  generalize final txStep (final txStep _ es) es' = t at hzero hfr ⊢
  cases hjob : t.job with
  | none => rfl
  | some j =>
    have hlen := List.length_pos_iff.mpr (hfr j hjob)
    rw [Tx.need, hjob] at hzero
    dsimp only at hzero
    split at hzero <;> omega

theorem output_returns_pair :
    (final txStep (final txStep lpcTxSetup [.output (.pair 1 7 8) none, .cpu, .cpu, .cpu])
      (.output (.pair 2 9 10) none :: [.cpu, .dma, .dma] ++ [.cpu, .cpu, .cpu])).job = none := by
  have hinv := final_inv_of_step (I := Tx.Inv) (fun s e h => inv_step s e h)
    [.output (.pair 1 7 8) none, .cpu, .cpu, .cpu] lpcTxSetup_inv
  refine output_returns hinv rfl (c := .pair 2 9 10) rfl (by decide) (fun e he => ?_) (by decide)
    (by decide)
  simp only [List.cons_append, List.nil_append, List.mem_cons, List.not_mem_nil, or_false] at he
  rcases he with rfl | rfl | rfl | rfl | rfl | rfl <;> trivial

end AdcUdpStream.Net
