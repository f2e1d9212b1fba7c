import AdcUdpStream.Server.DataLoop

/-!
# What happens to the frames

The fill index goes back on a successful `pbuf_alloc` only, and then only
`total_cnt` bytes have been sent. After a `NULL` the buffer is longer than that:
with the next success the frames behind the first 50 are lost
(`frames_conserved_iff`), and after 19 in a row the next frame runs over the end
(`stores_inside_iff`).
-/

namespace AdcUdpStream.Server

open Steps

/-! ## Frames lost -/

/-- What was sent and what waits in the buffer is what was built, in whole frames. -/
structure Conserved (s : DataLoop) (ps : List Pass) : Prop where
  bytes : (payloads ps).flatten ++ s.contents = built ps
  whole : ∀ p ∈ payloads ps, 22 ∣ p.length

/-- No `pbuf_alloc` succeeds after one has returned `NULL`. -/
def NoSendAfterNull (as : List Bool) : Prop :=
  as.Pairwise fun earlier later => later = true → earlier = true

theorem noSendAfterNull_all {as : List Bool} (h : NoSendAfterNull as) :
    (∀ a ∈ as, a = true) ↔ nullRun as = 0 := by
  induction as using List.reverseRecOn with
  | nil => simp [nullRun]
  | append_singleton as a _ =>
    obtain ⟨-, -, hlast⟩ := List.pairwise_append.mp h
    cases a with
    | false => simp
    | true =>
      rw [nullRun_concat, if_pos rfl]
      refine iff_of_true (fun b hb => ?_) rfl
      rcases List.mem_append.mp hb with hb | hb
      · exact hlast b hb true (List.mem_singleton_self _) rfl
      · exact List.mem_singleton.mp hb

theorem noSendAfterNull_concat (as : List Bool) (a : Bool) :
    NoSendAfterNull (as ++ [a]) ↔ NoSendAfterNull as ∧ (a = true → nullRun as = 0) := by
  unfold NoSendAfterNull
  rw [List.pairwise_append]
  constructor
  · rintro ⟨h, -, hlast⟩
    refine ⟨h, fun ha => (noSendAfterNull_all h).mp fun b hb => ?_⟩
    exact hlast b hb a (List.mem_singleton_self _) ha
  · rintro ⟨h, hnull⟩
    refine ⟨h, List.pairwise_singleton _ _, fun b hb c hc hct => ?_⟩
    rw [List.mem_singleton.mp hc] at hct
    exact (noSendAfterNull_all h).mpr (hnull hct) b hb

/-- The books of a run: everything is there, or bytes are missing and stay so. -/
structure Books (s : DataLoop) (ps : List Pass) : Prop where
  counts : Counts s ps
  whole : ∀ p ∈ payloads ps, p.length = totalCnt
  bytes : NoSendAfterNull (allocs ps) → (payloads ps).flatten ++ s.contents = built ps
  lost : ¬ NoSendAfterNull (allocs ps) →
    (payloads ps).flatten.length + s.sendCnt < (built ps).length

theorem books_start : Books {} [] where
  counts := counts_start
  whole := by simp [payloads]
  bytes := fun _ => rfl
  lost := fun h => absurd List.Pairwise.nil h

theorem built_concat (ps : List Pass) (p : Pass) : built (ps ++ [p]) = built ps ++ p.frame := by
  simp [built]

theorem payloads_concat (ps : List Pass) (p : Pass) :
    payloads (ps ++ [p]) = payloads ps ++ p.payload.toList := by
  rw [payloads, List.filterMap_append]
  cases h : p.payload <;> simp [h, payloads]

theorem Books.keep {s : DataLoop} {ps : List Pass} (h : Books s ps) {p : Pass}
    (hcounts : Counts s.fill (ps ++ [p])) (hframe : p.frame = s.frame) (hpay : p.payload = none)
    (hno : NoSendAfterNull (allocs (ps ++ [p])) ↔ NoSendAfterNull (allocs ps)) :
    Books s.fill (ps ++ [p]) := by
  have hpays : payloads (ps ++ [p]) = payloads ps := by
    rw [payloads_concat, hpay]
    exact List.append_nil _
  refine ⟨hcounts, ?_, fun h' => ?_, fun h' => ?_⟩
  · rw [hpays]
    exact h.whole
  · rw [hpays, contents_fill, ← List.append_assoc, h.bytes (hno.mp h'), built_concat, hframe]
  · have := h.lost fun hc => h' (hno.mpr hc)
    rw [hpays, built_concat, hframe, List.length_append, sendCnt_fill, frame_length]
    omega

theorem Books.sent {s : DataLoop} {ps : List Pass} (h : Books s ps)
    (hfull : totalCnt ≤ s.sendCnt + 22) :
    Books (buildFrame s true).1 (ps ++ [(buildFrame s true).2]) := by
  have hcounts := h.counts.buildFrame true
  rw [buildFrame_sent hfull] at hcounts ⊢
  obtain ⟨j, hj, hnull⟩ := h.counts
  have htotal : totalCnt = 1100 := rfl
  have hlen : (s.contents ++ s.frame).length = s.sendCnt + 22 := by
    rw [List.length_append, s.contents_length, frame_length]
  refine ⟨hcounts, ?_, ?_, ?_⟩
  · intro q hq
    rw [payloads_concat] at hq
    rcases List.mem_append.mp hq with hq | hq
    · exact h.whole q hq
    · rw [List.mem_singleton.mp hq, List.length_take, hlen]
      omega
  · intro hno
    rw [allocs_append] at hno
    obtain ⟨hno, hrun⟩ := (noSendAfterNull_concat _ true).mp hno
    have hrun := hrun rfl
    -- no `NULL` since the last datagram: the buffer holds 50 frames
    have hall : (s.contents ++ s.frame).take totalCnt = s.contents ++ s.frame :=
      List.take_of_length_le (by omega)
    rw [payloads_concat, built_concat, ← h.bytes hno]
    show (payloads ps ++ [(s.contents ++ s.frame).take totalCnt]).flatten ++ [] = _
    rw [hall, List.flatten_append, List.flatten_singleton, List.append_nil, List.append_assoc]
  · intro hno
    rw [allocs_append, show allocs [_] = [true] from rfl, noSendAfterNull_concat] at hno
    have hmissing : (payloads ps).flatten.length + totalCnt < (built ps).length + 22 := by
      by_cases hps : NoSendAfterNull (allocs ps)
      · have hrun : nullRun (allocs ps) ≠ 0 := fun h0 => hno ⟨hps, fun _ => h0⟩
        have hbytes := congrArg List.length (h.bytes hps)
        rw [List.length_append, s.contents_length] at hbytes
        omega
      · have := h.lost hps
        omega
    rw [payloads_concat, built_concat]
    show (payloads ps ++ [(s.contents ++ s.frame).take totalCnt]).flatten.length + 0 < _
    rw [List.flatten_append, List.flatten_singleton, List.length_append, List.length_take, hlen,
      List.length_append, frame_length]
    omega

theorem Books.buildFrame {s : DataLoop} {ps : List Pass} (h : Books s ps) (allocOk : Bool) :
    Books (buildFrame s allocOk).1 (ps ++ [(buildFrame s allocOk).2]) := by
  by_cases hroom : s.sendCnt + 22 < totalCnt
  · have hcounts := h.counts.buildFrame allocOk
    rw [buildFrame_room hroom] at hcounts ⊢
    apply h.keep hcounts rfl rfl
    rw [allocs_append]
    exact iff_of_eq (congrArg NoSendAfterNull (List.append_nil _))
  · cases allocOk with
    | true => exact h.sent (by omega)
    | false =>
      have hcounts := h.counts.buildFrame false
      rw [buildFrame_null (by omega)] at hcounts ⊢
      apply h.keep hcounts rfl rfl
      rw [allocs_append]
      exact (noSendAfterNull_concat _ false).trans (and_iff_left (by simp))

theorem books_run (as : List Bool) : Books (final sample {} as) (outs sample {} as) := by
  have hstep : ∀ (s : DataLoop) (ps : List Pass) (a : Bool), Books s ps →
      Books (sample s a).1 (ps ++ [(sample s a).2]) := by
    intro s ps a h
    have hcleared : Books { s with freqFlag := 0 } ps := ⟨h.counts, h.whole, h.bytes, h.lost⟩
    exact hcleared.buildFrame a
  have := final_outs_inv hstep books_start as
  rwa [List.nil_append] at this

/-- **When no frame is lost, duplicated or reordered.** For every number of samples and every
sequence of `pbuf_alloc` outcomes with which every store is inside `send_buffer`: all payloads
followed by the buffer are all frames built, if and only if no `pbuf_alloc` succeeds after one has
returned `NULL`. -/
theorem frames_conserved_iff (as : List Bool) (_ : ∀ p ∈ outs sample {} as, p.Inside) :
    Conserved (final sample {} as) (outs sample {} as) ↔
      NoSendAfterNull (allocs (outs sample {} as)) := by
  have h := books_run as
  constructor
  · intro hcons
    by_contra hno
    have hlost := h.lost hno
    have hbytes := congrArg List.length hcons.bytes
    rw [List.length_append, DataLoop.contents_length] at hbytes
    omega
  · intro hno
    refine ⟨h.bytes hno, fun p hp => ?_⟩
    rw [h.whole p hp]
    exact ⟨50, rfl⟩

theorem frames_conserved_iff_sixty :
    Conserved (final sample {} (List.replicate 60 true))
      (outs sample {} (List.replicate 60 true)) := by
  refine (frames_conserved_iff (List.replicate 60 true) (by decide +kernel)).mpr ?_
  have hallocs : allocs (outs sample {} (List.replicate 60 true)) = [true] := by decide +kernel
  rw [hallocs]
  exact List.pairwise_singleton _ _

/-- `pbuf_alloc` fails at the 50th sample and succeeds at the 51st: the 51st frame is lost. -/
theorem frame_lost :
    ¬ Conserved (final sample {} (List.replicate 50 false ++ [true]))
      (outs sample {} (List.replicate 50 false ++ [true])) := by
  intro h
  have hallocs : allocs (outs sample {} (List.replicate 50 false ++ [true])) = [false, true] := by
    decide
  have hno : ¬ NoSendAfterNull [false, true] := by
    unfold NoSendAfterNull
    decide
  have hlost := (books_run (List.replicate 50 false ++ [true])).lost (by rwa [hallocs])
  have hbytes := congrArg List.length h.bytes
  rw [List.length_append, DataLoop.contents_length] at hbytes
  omega

/-! ## The buffer overrun -/

theorem sample_stores (s : DataLoop) (a : Bool) :
    (∀ i ∈ (sample s a).2.stores, i < sendBufferSize) ↔ s.sendCnt + 22 ≤ sendBufferSize := by
  have hstores : (sample s a).2.stores = List.range' s.sendCnt 22 := by
    unfold sample buildFrame
    dsimp only
    split
    · split <;> rfl
    · rfl
  rw [hstores]
  constructor
  · intro h
    have := h (s.sendCnt + 21) (by simp)
    omega
  · intro h i hi
    rw [List.mem_range'_1] at hi
    omega

/-- **When the send buffer is not overrun.** For every number of samples and every sequence of
`pbuf_alloc` outcomes: every store is inside `send_buffer` if and only if before no sample the last
19 calls of `pbuf_alloc` have all returned `NULL`. -/
theorem stores_inside_iff (as : List Bool) :
    (∀ p ∈ outs sample {} as, ∀ i ∈ p.stores, i < sendBufferSize) ↔
      ∀ before a after, as = before ++ a :: after →
        nullRun (allocs (outs sample {} before)) < 19 := by
  rw [forall_outs_iff]
  have hsize : sendBufferSize = 1500 := rfl
  constructor
  · intro h before a after has
    obtain ⟨j, hj, hnull⟩ := (books_run before).counts
    have := (sample_stores _ a).mp (h before a after has)
    omega
  · intro h before a after has
    obtain ⟨j, hj, hnull⟩ := (books_run before).counts
    have := h before a after has
    exact (sample_stores _ a).mpr (by omega)

/-- 69 samples without a free pbuf: the last frame is stored at 1496 to 1517. -/
theorem buffer_overrun :
    ¬ ∀ p ∈ outs sample {} (List.replicate 69 false), ∀ i ∈ p.stores, i < sendBufferSize := by
  decide

end AdcUdpStream.Server
