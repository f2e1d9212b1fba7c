import AdcUdpStream.Loader.Response

/-!
# The end of a response

A response does end when TCP goes on taking bytes (`response_completes`). The poll
timer repeats the default page only: a 404 page TCP did not take at once waits for
an acknowledgement, and is dropped after four polls (`notFound_not_polled`).
-/

namespace AdcUdpStream.Loader

open CStr Steps

/-! ## Progress -/

/-- An acknowledgement at which TCP has room and refuses nothing. -/
def RespEvent.isKind : RespEvent → Bool
  | .sent tcp => decide (0 < tcp.sndBuf) && decide (0 < tcp.mss) && tcp.answers.isEmpty
  | _ => false

def RespEvent.isClose : RespEvent → Bool
  | .close => true
  | _ => false

section Progress

variable {hs : Response}

theorem sendHdrs_len (fuel : Nat) (t : Sending) : (sendHdrs fuel t).len ≤ t.len := by
  induction fuel generalizing t with
  | zero => exact Nat.le_refl _
  | succ fuel ih =>
    have hround : t.round.2.len ≤ t.len := Nat.sub_le ..
    rw [sendHdrs]
    split
    · split
      · exact hround
      · exact Nat.le_trans (ih _) hround
    · exact Nat.le_refl _

theorem sendHdrs_progress (h : hs.Inv) (hidx : hs.hdrIndex < numFileHdrStrings) {n : Nat}
    (hn : 0 < n) : (sendHdrs n { hs, len := n, answers := [] }).written ≠ [] := by
  have h0 : Sending.From { hs, len := n, answers := [] } hs n :=
    ⟨h, rfl, Nat.zero_add _, rfl, rfl, rfl, rfl⟩
  have hpos := (h.index hidx).2
  obtain ⟨fuel, rfl⟩ := Nat.exists_eq_succ_of_ne_zero hn.ne'
  have hfrom := sendHdrs_from h0 (fuel + 1)
  have hround : (Sending.round { hs, len := fuel + 1, answers := [] }).1 =
      min (fuel + 1) ((hs.hdrs.getD hs.hdrIndex []).length - hs.hdrPos) := rfl
  have hlen : (sendHdrs (fuel + 1) { hs, len := fuel + 1, answers := [] }).len < fuel + 1 := by
    have hless : (Sending.round { hs, len := fuel + 1, answers := [] }).2.len < fuel + 1 := by
      show fuel + 1 - (Sending.round { hs, len := fuel + 1, answers := [] }).1 < fuel + 1
      omega
    rw [sendHdrs, if_pos ⟨Nat.succ_ne_zero fuel, hidx⟩, if_neg (by omega)]
    exact Nat.lt_of_le_of_lt (sendHdrs_len _ _) hless
  intro hnil
  have hroom := hfrom.room
  rw [Nat.succ_eq_add_one, hnil] at hroom
  rw [List.length_nil] at hroom
  omega

theorem sendFile_keeps {t : Sending} (hw : t.written ≠ []) (mss : Nat) :
    (sendFile mss t).2.written ≠ [] := by
  unfold sendFile
  split
  · exact hw
  · dsimp only
    split_ifs <;> exact List.append_ne_nil_of_left_ne_nil hw _

/-- **A willing TCP gets bytes or the end.** -/
theorem sendData_progress (h : hs.Inv) {tcp : Tcp} (hbuf : 0 < tcp.sndBuf) (hmss : 0 < tcp.mss)
    (hanswers : tcp.answers = []) :
    (hs.sendData tcp).2.ended = true ∨ (hs.sendData tcp).2.written ≠ [] := by
  unfold Response.sendData
  rw [hanswers]
  dsimp only
  split
  · next hidx =>
    have hw := sendHdrs_progress h hidx hbuf
    split
    · exact .inr hw
    · exact .inr (sendFile_keeps hw _)
  · have hinv := h.left
    unfold sendFile
    split
    · exact .inl rfl
    · next hleft =>
      dsimp only at hleft
      have hone : 0 < min (min tcp.sndBuf hs.left) (2 * tcp.mss) := by omega
      have htake : (hs.file.getD []).take (min (min tcp.sndBuf hs.left) (2 * tcp.mss)) ≠ [] := by
        rw [ne_eq, List.take_eq_nil_iff, not_or]
        refine ⟨hone.ne', fun hnil => ?_⟩
        rw [hnil, List.length_nil] at hinv
        omega
      simp only [httpWrite, ↓reduceIte]
      split
      · exact .inl rfl
      · exact .inr htake

theorem respStep_open (h : hs.Inv) (hopen : hs.closed = false) {e : RespEvent}
    (hfind : e.isFind = true → hs.file.isSome = true) (hclose : e.isClose = false)
    (htime : (respStep hs e).2.timedOut = false) (hend : (respStep hs e).2.ended = false) :
    (respStep hs e).1.closed = false := by
  have hpos : 0 < httpdMaxRetries := by decide
  have hlt := h.retries hopen
  have hsend : ∀ k tcp, k < httpdMaxRetries →
      (Response.sendData { hs with retries := k } tcp).2.ended = false →
      (Response.sendData { hs with retries := k } tcp).1.closed = false := by
    intro k tcp hk hend
    rw [(sendData_sends (h.retry hk) tcp).closed, hend, Bool.or_false]
    exact hopen
  rw [respStep_call hopen] at htime hend ⊢
  cases e with
  | find memory is09 uri =>
    rw [respCall, if_pos (hfind rfl)]
    exact hopen
  | send tcp => exact hsend _ tcp hlt hend
  | sent tcp => exact hsend 0 tcp hpos hend
  | poll tcp =>
    rw [respCall] at htime hend ⊢
    dsimp only at htime hend ⊢
    by_cases hmax : hs.retries + 1 = httpdMaxRetries
    · rw [if_pos hmax] at htime
      cases htime
    · rw [if_neg hmax] at hend ⊢
      split
      · next hfile =>
        rw [if_pos hfile] at hend
        exact hsend _ tcp (Nat.lt_of_le_of_ne hlt hmax) hend
      · exact hopen
  | postData => exact hopen
  | close => cases hclose

theorem respStep_kind (h : hs.Inv) (hopen : hs.closed = false) {e : RespEvent}
    (hkind : e.isKind = true) (hend : (respStep hs e).2.ended = false) :
    (respStep hs e).2.written ≠ [] := by
  cases e with
  | sent tcp =>
    simp only [RespEvent.isKind, Bool.and_eq_true, decide_eq_true_eq, List.isEmpty_iff] at hkind
    rw [respStep_call hopen] at hend ⊢
    have h' : Response.Inv { hs with retries := 0 } := h.retry (by decide)
    have hprog := sendData_progress h' hkind.1.1 hkind.1.2 hkind.2
    exact hprog.resolve_left fun he => Bool.false_ne_true (hend.symm.trans he)
  | _ => cases hkind

theorem progress_run (h : hs.Inv) (hopen : hs.closed = false) {es : List RespEvent}
    (hone : hs.file.isSome = true ∨ ∀ e ∈ es, e.isFind = false)
    (hclose : ∀ e ∈ es, e.isClose = false)
    (htime : ∀ o ∈ outs respStep hs es, o.timedOut = false)
    (hend : ∀ o ∈ outs respStep hs es, o.ended = false) :
    es.countP RespEvent.isKind ≤ hs.rest.length := by
  induction es generalizing hs with
  | nil => exact Nat.zero_le _
  | cons e es ih =>
    rw [outs_cons, List.forall_mem_cons] at htime hend
    obtain ⟨hce, hclose⟩ := List.forall_mem_cons.mp hclose
    have hfind : e.isFind = true → hs.file.isSome = true := by
      intro hf
      refine hone.resolve_right fun hnone => ?_
      rw [(List.forall_mem_cons.mp hnone).1] at hf
      cases hf
    obtain ⟨hinv', hrest, -, hfile⟩ := respStep_streams h hfind
    have hopen' := respStep_open h hopen hfind hce htime.1 hend.1
    have hone' : (respStep hs e).1.file.isSome = true ∨ ∀ e ∈ es, e.isFind = false := by
      rw [hfile]
      exact hone.imp_right fun hnone => (List.forall_mem_cons.mp hnone).2
    have hrun := ih hinv' hopen' hone' hclose htime.2 hend.2
    rw [hrest, List.length_append, List.countP_cons]
    split
    · next hkind =>
      have := List.length_pos_of_ne_nil (respStep_kind h hopen hkind hend.1)
      omega
    · omega

end Progress

/-- **A response is finished.** After a request, TCP has room and refuses nothing at more
acknowledgements than there are bytes to send: unless a time-out or the other side closes the
connection, the response ends it. -/
theorem response_completes (before es : List RespEvent) (memory is09 : Bool) (uri : List UInt8)
    (hopen : (final respStep {} before).closed = false)
    (hidle : (final respStep {} before).file = none)
    (hone : (uriIsRoot uri && memory) = true ∨ ∀ e ∈ es, e.isFind = false)
    (hclose : ∀ e ∈ es, e.isClose = false)
    (htime : ∀ o ∈ outs respStep ((final respStep {} before).findFile memory is09 uri) es,
      o.timedOut = false)
    (hkind : ((final respStep {} before).due memory is09 uri).length <
      es.countP RespEvent.isKind) :
    ∃ o ∈ outs respStep ((final respStep {} before).findFile memory is09 uri) es,
      o.ended = true := by
  obtain ⟨hinv, hdue, hfile, hclosed, -⟩ := findFile_spec (inv_run before) hidle memory is09 uri
  rw [← hfile] at hone
  rw [← hdue] at hkind
  by_contra hnone
  have hend : ∀ o ∈ outs respStep ((final respStep {} before).findFile memory is09 uri) es,
      o.ended = false := by
    intro o ho
    by_contra he
    exact hnone ⟨o, ho, by rwa [Bool.not_eq_false] at he⟩
  have := progress_run hinv (hclosed.trans hopen) hone hclose htime hend
  omega

theorem sents_not_timedOut {hs : Response} (h : hs.Inv) (tcp : Tcp) (n : Nat) :
    ∀ o ∈ outs respStep hs (List.replicate n (.sent tcp)), o.timedOut = false := by
  refine outs_of_inv (I := Response.Inv) (Q := fun _ e => e = .sent tcp)
    (fun s e hs _ => respStep_inv hs e) ?_ h
    (along_of_mem (G := fun e : RespEvent => e = .sent tcp)
      fun e he => (List.mem_replicate.mp he).2)
  rintro s e hs rfl
  cases hopen : s.closed with
  | true => rw [respStep_closed hopen]
  | false =>
    rw [respStep_call hopen]
    exact (sendData_sends (hs.retry (by decide)) tcp).timedOut

theorem response_completes_notFound :
    ∃ o ∈ outs respStep (Response.findFile {} true false (bytes "/other"))
        (List.replicate 172 (.sent ⟨1, 1, []⟩)), o.ended = true := by
  have hinv := findFile_spec inv_accepted rfl true false (bytes "/other")
  refine response_completes [] (List.replicate 172 (.sent ⟨1, 1, []⟩)) true false
    (bytes "/other") rfl rfl (.inr fun e he => ?_) (fun e he => ?_)
    (sents_not_timedOut hinv.1 _ _) ?_
  · rw [(List.mem_replicate.mp he).2]
    rfl
  · rw [(List.mem_replicate.mp he).2]
    rfl
  · rw [List.countP_replicate]
    decide +kernel

/-! ## The polls -/

def RespEvent.isPoll : RespEvent → Bool
  | .poll _ => true
  | _ => false

theorem outs_closed {hs : Response} (hc : hs.closed = true) (es : List RespEvent) :
    outs respStep hs es = List.replicate es.length {} := by
  induction es with
  | nil => rfl
  | cons e es ih => rw [outs_cons, respStep_closed hc, ih, List.length_cons, List.replicate_succ]

theorem respStep_poll {hs : Response} (hopen : hs.closed = false) (hfile : hs.file = none)
    (tcp : Tcp) : respStep hs (.poll tcp) =
      if hs.retries + 1 = httpdMaxRetries then
        ({ hs with retries := hs.retries + 1, closed := true }, { timedOut := true })
      else ({ hs with retries := hs.retries + 1 }, {}) := by
  rw [respStep_call hopen, respCall]
  dsimp only
  rw [if_neg (c := hs.file.isSome = true) (by rw [hfile]; exact Bool.false_ne_true)]

theorem polls_run {hs : Response} (h : hs.Inv) (hopen : hs.closed = false)
    (hfile : hs.file = none) {es : List RespEvent} (hpolls : ∀ e ∈ es, e.isPoll = true) :
    sentBytes (outs respStep hs es) = [] ∧
      ((∃ o ∈ outs respStep hs es, o.timedOut = true) ↔
        httpdMaxRetries ≤ hs.retries + es.length) := by
  induction es generalizing hs with
  | nil =>
    have := h.retries hopen
    refine ⟨rfl, fun ⟨o, ho, _⟩ => (by cases ho), fun hle => ?_⟩
    rw [List.length_nil] at hle
    omega
  | cons e es ih =>
    obtain ⟨he, hes⟩ := List.forall_mem_cons.mp hpolls
    have hlt := h.retries hopen
    cases e with
    | poll tcp =>
      rw [outs_cons, List.length_cons, respStep_poll hopen hfile]
      by_cases hmax : hs.retries + 1 = httpdMaxRetries
      · rw [if_pos hmax, outs_closed rfl]
        refine ⟨?_, fun _ => by omega, fun _ => ⟨_, List.mem_cons_self .., rfl⟩⟩
        rw [sentBytes, List.flatMap_cons, List.flatMap_eq_nil_iff.mpr]
        · rfl
        · intro o ho
          rw [List.eq_of_mem_replicate ho]
      · have hk : hs.retries + 1 < httpdMaxRetries := Nat.lt_of_le_of_ne hlt hmax
        obtain ⟨hbytes, htime⟩ := ih (h.retry hk) hopen hfile hes
        rw [if_neg hmax]
        refine ⟨hbytes, ?_⟩
        rw [List.exists_mem_cons_iff, or_iff_right (by exact Bool.false_ne_true), htime]
        dsimp only
        omega
    | _ => cases he

/-- **The polls do not repeat a 404 page.** After any run, polls of a connection without a file
send nothing, and the fourth since TCP was last heard of closes it, whatever of the page was not
taken. -/
theorem notFound_not_polled (before es : List RespEvent)
    (hopen : (final respStep {} before).closed = false)
    (hnone : (final respStep {} before).file = none) (hpolls : ∀ e ∈ es, e.isPoll = true) :
    sentBytes (outs respStep (final respStep {} before) es) = [] ∧
      ((∃ o ∈ outs respStep (final respStep {} before) es, o.timedOut = true) ↔
        httpdMaxRetries ≤ (final respStep {} before).retries + es.length) :=
  polls_run (inv_run before) hopen hnone hpolls

theorem notFound_not_polled_full :
    sentBytes (outs respStep (final respStep {}
        [.find true false (bytes "/other"), .send ⟨0, 536, []⟩])
        (List.replicate 4 (.poll ⟨1000, 536, []⟩))) = [] ∧
      ((∃ o ∈ outs respStep (final respStep {}
          [.find true false (bytes "/other"), .send ⟨0, 536, []⟩])
          (List.replicate 4 (.poll ⟨1000, 536, []⟩)), o.timedOut = true) ↔
        httpdMaxRetries ≤ (final respStep {}
          [.find true false (bytes "/other"), .send ⟨0, 536, []⟩]).retries + 4) :=
  notFound_not_polled _ (List.replicate 4 (.poll ⟨1000, 536, []⟩)) (by decide) (by decide)
    fun e he => by rw [(List.mem_replicate.mp he).2]; rfl

end AdcUdpStream.Loader
