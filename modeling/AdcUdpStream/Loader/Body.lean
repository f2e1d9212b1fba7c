import AdcUdpStream.Loader.Httpd

/-!
# Two counters over one body

httpd counts the content length down by `tot_len`, the state machine counts file
bytes up by `len`. `Taking` is the state of both while a body is received in
which no chain has bytes behind its first pbuf: it holds after the POST is
accepted, and one `http_post_rxpbuf` either keeps it or ends the POST
(`httpPostRxpbuf_taking`, `httpPostRxpbuf_finishes`). From it: the counters
agree on every chain of an upload if and only if nothing is chained
(`counters_agree_iff`).
-/

namespace AdcUdpStream.Loader

open CStr Steps

variable {F : Type} (wf : WriteFlash F) (f : F)

/-! ## The state machine -/

/-- The block loop after the body bytes `B`, of which the first `m` are the preamble. -/
def stored (m : Nat) (B : List UInt8) : Stage F := (B.drop m).foldl (storeByte wf) (.powerOn f)

theorem stored_append {m : Nat} {B : List UInt8} (h : m ≤ B.length) (xs : List UInt8) :
    stored wf f m (B ++ xs) = xs.foldl (storeByte wf) (stored wf f m B) := by
  rw [stored, List.drop_append_of_le_length h, List.foldl_append]
  rfl

theorem stored_preamble {m : Nat} {B : List UInt8} (h : B.length ≤ m) :
    stored wf f m B = .powerOn f := by
  rw [stored, List.drop_eq_nil_of_le h]
  rfl

/-- The state machine after the first bytes `B` of a body of `n` bytes. -/
structure Taken (n : Nat) (P : Preamble) (B : List UInt8) (u : Updater F) : Prop where
  curlen : u.curlen = (B.length - P.bytes.length : Nat)
  stage : u.stage = stored wf f P.bytes.length B
  state : (B = [] ∧ u.fwupdate.state = .octetStart ∧ u.fwupdate.contentLength = n) ∨
    (P.bytes.length ≤ B.length ∧ u.fwupdate.state = .octetStream ∧
      u.fwupdate.fileLength = n - P.bytes.length)

/-- What a buffer that brings the body to `B` did. -/
structure Fed (n : Nat) (P : Preamble) (B : List UInt8) (r : Updater F × FwupdateStatus) :
    Prop where
  more : B.length < n → Taken wf f n P B r.1 ∧ r.2 ≠ .done
  ends : n ≤ B.length → r.1.stage = writeRest wf (stored wf f P.bytes.length B) ∧
    (r.2 = .done ↔ P.bytes.length < B.length)
  curlen : r.1.curlen = (B.length - P.bytes.length : Nat)

section Feed

variable {wf f} {n : Nat} {P : Preamble} {B : List UInt8} {u : Updater F}

theorem octetStream_fed {xs : List UInt8} (hP : P.bytes.length ≤ B.length)
    (hcur : u.curlen = (B.length - P.bytes.length : Nat))
    (hstage : u.stage = stored wf f P.bytes.length B) (hs : u.fwupdate.state = .octetStream)
    (hl : u.fwupdate.fileLength = n - P.bytes.length)
    (hxs : xs ≠ []) : Fed wf f n P (B ++ xs) (octetStream wf u xs) := by
  have hlen : (B ++ xs).length = B.length + xs.length := List.length_append
  have hstored : xs.foldl (storeByte wf) u.stage = stored wf f P.bytes.length (B ++ xs) := by
    rw [stored_append wf f hP, hstage]
  refine ⟨fun h => ?_, fun h => ?_, ?_⟩
  · have hgo : u.curlen + xs.length < u.fwupdate.fileLength := by omega
    rw [octetStream_inprogress wf hgo]
    refine ⟨⟨?_, hstored, .inr ⟨by omega, hs, hl⟩⟩, by simp⟩
    dsimp only
    omega
  · have hend : u.fwupdate.fileLength ≤ u.curlen + xs.length := by omega
    have hpos := List.length_pos_iff.mpr hxs
    have hlt : P.bytes.length < (B ++ xs).length := by omega
    rw [octetStream_done wf hend]
    dsimp only
    rw [hstored]
    exact ⟨rfl, iff_of_true rfl hlt⟩
  · rw [octetStream_curlen]
    omega

theorem preamble_fed {q : Segment} (hB : Taken wf f n P [] u) (hq : q.payload = P.bytes) :
    Fed wf f n P P.bytes (feed wf u q) := by
  obtain ⟨hcur, hstage, hstate⟩ := hB
  have hpos := P.length_pos
  obtain ⟨-, hs, hn⟩ : [] = [] ∧ u.fwupdate.state = .octetStart ∧ u.fwupdate.contentLength = n := by
    rcases hstate with h | ⟨h, -⟩
    · exact h
    · rw [List.length_nil] at h
      omega
  obtain ⟨o, htag, ho⟩ := P.strstr_mem (q := q) (by rw [hq])
  have hinit : u.stage = stored wf f P.bytes.length P.bytes := by
    rw [hstage, stored_preamble wf f (Nat.zero_le _), stored_preamble wf f (Nat.le_refl _)]
  have hfeed : feed wf u q =
      ({ u with fwupdate := u.fwupdate.armed P.bytes.length }, .inprogress) := by
    unfold feed
    rw [machine_octetStart_end wf hs (by rw [hq]; exact hpos) htag ho.symm (by rw [hq])]
  have hzero : u.curlen = (P.bytes.length - P.bytes.length : Nat) := by
    rw [hcur, List.length_nil, Nat.zero_sub, Nat.sub_self]
  rw [hfeed]
  refine ⟨fun _ => ⟨⟨hzero, hinit, .inr ⟨Nat.le_refl _, rfl, ?_⟩⟩, by simp⟩,
    fun _ => ⟨?_, ?_⟩, hzero⟩
  · show u.fwupdate.contentLength - P.bytes.length = _
    rw [hn]
  · show u.stage = _
    rw [hinit, stored_preamble wf f (Nat.le_refl _)]
    rfl
  · simp

/-- **One buffer of the body**, the first of which holds the preamble. -/
theorem feed_fed {q : Segment} (hB : Taken wf f n P B u) (hn : B.length < n)
    (hfirst : B = [] → P.bytes <+: q.payload) : Fed wf f n P (B ++ q.payload) (feed wf u q) := by
  have hB' := hB
  obtain ⟨hcur, hstage, ⟨rfl, hs, hcl⟩ | ⟨hP, hs, hl⟩⟩ := hB
  · have hpre := hfirst rfl
    have hle := hpre.length_le
    rw [List.nil_append]
    by_cases heq : q.payload.length = P.bytes.length
    · have hq : q.payload = P.bytes := (hpre.eq_of_length heq.symm).symm
      rw [hq]
      exact preamble_fed hB' hq
    · obtain ⟨o, htag, ho⟩ := P.strstr_mem hpre
      have hrest : q.payload.drop P.bytes.length ≠ [] := by
        rw [← List.length_pos_iff, List.length_drop]
        omega
      have hsplit : P.bytes ++ q.payload.drop P.bytes.length = q.payload :=
        List.prefix_iff_eq_append.mp hpre
      have hfed : Fed wf f n P (P.bytes ++ q.payload.drop P.bytes.length)
          (octetStream wf { u with fwupdate := u.fwupdate.armed P.bytes.length }
            (q.payload.drop P.bytes.length)) := by
        refine octetStream_fed (Nat.le_refl _) ?_ ?_ rfl ?_ hrest
        · show u.curlen = _
          rw [hcur, List.length_nil, Nat.zero_sub, Nat.sub_self]
        · show u.stage = _
          rw [hstage, stored_preamble wf f (Nat.zero_le _), stored_preamble wf f (Nat.le_refl _)]
        · show u.fwupdate.contentLength - P.bytes.length = _
          rw [hcl]
      rw [feed_preamble wf hs hpre htag ho (.inl (by omega))]
      rwa [hsplit] at hfed
  · by_cases hq : q.payload = []
    · rw [feed_empty wf hq, hq, List.append_nil]
      exact ⟨fun _ => ⟨hB', by simp⟩, fun h => absurd hn (by omega), hcur⟩
    · rw [feed_stream wf hs hq]
      exact octetStream_fed hP hcur hstage hs hl hq

end Feed

/-! ## httpd -/

/-- The statuses the state machine answered during a call. -/
def answered (a : HttpAnswer) : List FwupdateStatus := statuses (a.calls.map Prod.snd)

/-- Connection `c` sends a body of `n` bytes, and `B` is what came of it. -/
structure Taking (c : Conn) (n : Nat) (P : Preamble) (B : List UInt8) (l : Link F) : Prop where
  current : l.post.currentConnection = some c
  running : l.post.jumped = false
  quiet : l.post.reboot = false
  unclosed : l.closed = false
  left : l.hs.postContentLenLeft = n - B.length
  short : B.length < n
  taken : Taken wf f n P B l.post.upd

/-- The call that brought the body to `B` ended the POST. -/
structure Finished (c : Conn) (P : Preamble) (B : List UInt8) (r : Link F × HttpAnswer) : Prop where
  left : r.1.hs.postContentLenLeft = 0
  curlen : r.1.post.upd.curlen = (B.length - P.bytes.length : Nat)
  stage : r.1.post.upd.stage = writeRest wf (stored wf f P.bytes.length B)
  finished : ∃ a, (Event.postFinished c, a) ∈ r.2.calls
  done : .done ∈ answered r.2 ↔ P.bytes.length < B.length
  jumped : r.1.post.jumped = true ↔ P.bytes.length < B.length

section Link

variable {wf f} {c : Conn} {n : Nat} {P : Preamble} {B : List UInt8} {l : Link F}

theorem step_finished_jumps {s : Post F} (hj : s.jumped = false) (hr : s.reboot = true) :
    step wf s (.postFinished c) = ({ s with jumped := true }, { jumps := true }) := by
  rw [step_of_running wf hj]
  show httpdPostFinished s c = _
  rw [httpdPostFinished, if_pos hr]

theorem step_finished_closes (wf : WriteFlash F) {s : Post F} (hj : s.jumped = false)
    (hr : s.reboot = false)
    (hc : s.currentConnection = some c) :
    ∃ uri, step wf s (.postFinished c) = (s.closed, { responseUri := uri }) := by
  rw [step_of_running wf hj]
  show ∃ uri, httpdPostFinished s c = _
  rw [httpdPostFinished, if_neg (by simp [hr]), if_pos hc]
  exact ⟨_, rfl⟩

/-- The POST ends: with the reboot flag the loader jumps, without it the session is free. -/
theorem httpHandlePostFinished_post (wf : WriteFlash F) (opens : Bool) (hj : l.post.jumped = false)
    (hc : l.post.currentConnection = some c) :
    ∃ l' err a, httpHandlePostFinished wf c opens l = (l', ⟨err, [(.postFinished c, a)]⟩) ∧
      l'.post.upd = l.post.upd ∧ l'.post.jumped = l.post.reboot ∧ a.status = none ∧
      l'.hs.postContentLenLeft = l.hs.postContentLenLeft := by
  unfold httpHandlePostFinished
  cases hr : l.post.reboot with
  | true =>
    rw [step_finished_jumps hj hr]
    exact ⟨_, .abrt, { jumps := true }, rfl, rfl, rfl, rfl, rfl⟩
  | false =>
    obtain ⟨uri, hstep⟩ := step_finished_closes wf hj hr hc
    rw [hstep]
    exact ⟨_, .ok, { responseUri := uri }, rfl, rfl, hj, rfl, rfl⟩

variable {p : Pbuf} (opens : Bool)

theorem begun {xs : List UInt8} (hfirst : B = [] → P.bytes <+: xs) : B ++ xs ≠ [] := by
  intro hnil
  obtain ⟨h1, h2⟩ := List.append_eq_nil_iff.mp hnil
  have hle := (hfirst h1).length_le
  have hpos := P.length_pos
  rw [h2, List.length_nil] at hle
  omega

/-- **The body goes on**: both counters take the chain. -/
theorem httpPostRxpbuf_taking (h : Taking wf f c n P B l) (hp : p.totLen = p.len)
    (hfirst : B = [] → P.bytes <+: p.head.payload) (hlt : (B ++ p.head.payload).length < n) :
    Taking wf f c n P (B ++ p.head.payload) (httpPostRxpbuf wf c opens l p).1 ∧
      .done ∉ answered (httpPostRxpbuf wf c opens l p).2 := by
  obtain ⟨hc, hj, hr, hopen, hleft, hshort, htaken⟩ := h
  obtain ⟨s', hstep, hupd, hc', hj', hreboot⟩ := step_receive wf p hc hj
  obtain ⟨htaken', hdone⟩ := (feed_fed htaken hshort hfirst).more hlt
  have hlen : (B ++ p.head.payload).length = B.length + p.len := List.length_append
  have hrx : httpPostRxpbuf wf c opens l p =
      ({ l with post := s', hs := l.hs.adjust p.totLen },
        { calls := [(.receiveData c p, { status := some (feed wf l.post.upd p.head).2 })] }) := by
    unfold httpPostRxpbuf
    rw [hstep]
    apply if_neg
    rw [HttpState.adjust_left]
    rintro (herr | hzero)
    · exact herr rfl
    · omega
  rw [hrx]
  refine ⟨⟨hc', hj', ?_, hopen, ?_, hlt, ?_⟩, ?_⟩
  · rw [← Bool.not_eq_true, hreboot]
    simp [hr, hdone]
  · rw [HttpState.adjust_left]
    omega
  · rw [hupd]
    exact htaken'
  · simpa [answered, statuses] using Ne.symm hdone

/-- **The chain with the last byte ends the POST.** -/
theorem httpPostRxpbuf_finishes (h : Taking wf f c n P B l) (hp : p.totLen = p.len)
    (hfirst : B = [] → P.bytes <+: p.head.payload) (hge : n ≤ (B ++ p.head.payload).length) :
    Finished wf f c P (B ++ p.head.payload) (httpPostRxpbuf wf c opens l p) := by
  obtain ⟨hc, hj, hr, hopen, hleft, hshort, htaken⟩ := h
  obtain ⟨s', hstep, hupd, hc', hj', hreboot⟩ := step_receive wf p hc hj
  have hfed := feed_fed htaken hshort hfirst
  obtain ⟨hstage, hdone⟩ := hfed.ends hge
  have hcurlen := hfed.curlen
  have hlen : (B ++ p.head.payload).length = B.length + p.len := List.length_append
  have hzero : (l.hs.adjust p.totLen).postContentLenLeft = 0 := by
    rw [HttpState.adjust_left]
    omega
  obtain ⟨l', err, a, hfin, hupd', hjump, hnone, hleft'⟩ :=
    httpHandlePostFinished_post (c := c)
      (l := { l with post := s', hs := l.hs.adjust p.totLen }) wf opens hj' hc'
  have hrx : httpPostRxpbuf wf c opens l p =
      (l', ⟨err, [(.receiveData c p, { status := some (feed wf l.post.upd p.head).2 }),
        (.postFinished c, a)]⟩) := by
    unfold httpPostRxpbuf
    rw [hstep]
    dsimp only
    rw [if_pos (.inr hzero), hfin]
    rfl
  rw [hrx]
  refine ⟨hleft'.trans hzero, ?_, ?_, ⟨a, by simp⟩, ?_, ?_⟩
  · rw [hupd', hupd, hcurlen]
  · rw [hupd', hupd, hstage]
  · simp only [answered, statuses, List.map_cons, List.map_nil, List.filterMap_cons, hnone,
      List.filterMap_nil, List.mem_singleton]
    rw [eq_comm]
    exact hdone
  · rw [hjump, hreboot, hr, ← hdone]
    simp

theorem httpPostRxpbuf_upd (hc : l.post.currentConnection = some c) (hj : l.post.jumped = false) :
    (httpPostRxpbuf wf c opens l p).1.post.upd = (feed wf l.post.upd p.head).1 := by
  obtain ⟨s', hstep, hupd, hc', hj', -⟩ := step_receive wf p hc hj
  unfold httpPostRxpbuf
  rw [hstep]
  dsimp only
  split
  · obtain ⟨l', err, a, hfin, hupd', -⟩ := httpHandlePostFinished_post (c := c)
      (l := { l with post := s', hs := l.hs.adjust p.totLen }) wf opens hj' hc'
    rw [hfin]
    exact hupd'.trans hupd
  · exact hupd

/-- **A body that has not ended yet has been taken up to where it is.** -/
theorem taking_run {ps : List Pbuf} (h : Taking wf f c n P B l) (hps : ∀ p ∈ ps, p.totLen = p.len)
    (hfirst : B = [] → ∀ p ∈ ps.head?, P.bytes <+: p.head.payload)
    (hlt : (B ++ bodyBytes ps).length < n) :
    Taking wf f c n P (B ++ bodyBytes ps) (final (httpPostRxpbuf wf c opens) l ps) := by
  induction ps generalizing B l with
  | nil => simpa [bodyBytes] using h
  | cons p ps ih =>
    have hp := hps p (List.mem_cons_self ..)
    have hfirst' : B = [] → P.bytes <+: p.head.payload := fun hB => hfirst hB p rfl
    have hbytes : B ++ bodyBytes (p :: ps) = (B ++ p.head.payload) ++ bodyBytes ps := by
      rw [← List.singleton_append, bodyBytes_append, bodyBytes_singleton, Pbuf.bytes_of_len hp,
        List.append_assoc]
    rw [hbytes, List.length_append] at hlt
    obtain ⟨hnext, -⟩ := httpPostRxpbuf_taking opens h hp hfirst' (by omega)
    rw [hbytes, final_cons]
    refine ih hnext (fun q hq => hps q (List.mem_cons_of_mem _ hq))
      (fun hB => absurd hB (begun hfirst')) ?_
    rw [List.length_append]
    exact hlt

end Link

/-! ## Chained pbufs -/

/-- The connection after `http_post_request` had its POST accepted by a loader just started. -/
def accepted (c : Conn) (uri : List UInt8) (n : Nat) : Link F where
  post := (step wf (powerOn f) (.postBegin c uri n)).1
  hs := { postContentLenLeft := n }

theorem accepted_taking {c : Conn} {uri : List UInt8} {n : Nat} (P : Preamble)
    (hu : startsWith uri (bytes "/upload")) (hn : 0 < n) :
    Taking wf f c n P [] (accepted wf f c uri n) := by
  have hpost : (accepted wf f c uri n).post = (powerOn f).opened c n := by
    have hstep : step wf (powerOn f) (.postBegin c uri n) = httpdPostBegin (powerOn f) c uri n :=
      step_of_running wf rfl _
    rw [accepted, hstep, begin_accepted hu (by simp [powerOn])]
    rfl
  refine ⟨?_, ?_, ?_, rfl, rfl, hn, ?_⟩
  · rw [hpost]
    rfl
  · rw [hpost]
    rfl
  · rw [hpost]
    rfl
  · rw [hpost]
    refine ⟨?_, ?_, .inl ⟨rfl, rfl, rfl⟩⟩
    · rw [List.length_nil, Nat.zero_sub]
      rfl
    · rw [stored_preamble wf f (Nat.zero_le _)]
      rfl

/-- A call of `http_post_rxpbuf` with body `B` so far, seen by both counters: the state machine has
taken every byte of it, in order, and answers `DONE` iff httpd expects no more. -/
structure InStep (P : Preamble) (B : List UInt8) (r : Link F × HttpAnswer) : Prop where
  curlen : r.1.post.upd.curlen = (B.length : Int) - P.bytes.length
  stage : r.1.post.upd.stage =
    if r.1.hs.postContentLenLeft = 0 then writeRest wf (stored wf f P.bytes.length B)
    else stored wf f P.bytes.length B
  done : .done ∈ answered r.2 ↔ r.1.hs.postContentLenLeft = 0

/-- The counters are in step after every chain of the upload. -/
def CountersAgree (opens : Bool) (U : Upload) (c : Conn) (uri : List UInt8) : Prop :=
  ∀ pre p post, U.pbufs = pre ++ p :: post →
    InStep wf f U.preamble (bodyBytes (pre ++ [p]))
      (httpPostRxpbuf wf c opens
        (final (httpPostRxpbuf wf c opens) (accepted wf f c uri U.contentLen.toNat) pre) p)

section Chains

variable {wf f} {U : Upload} {c : Conn} {uri : List UInt8} {pre post : List Pbuf} {p : Pbuf}
  (opens : Bool)

theorem Upload.contentLen_toNat (U : Upload) :
    U.contentLen.toNat = U.preamble.bytes.length + U.data.length := by
  rw [Upload.contentLen, Int.toNat_natCast, List.length_append]

theorem Upload.short (h : U.pbufs = pre ++ p :: post) :
    (bodyBytes pre).length < U.contentLen.toNat ∧
      (bodyBytes (pre ++ [p])).length ≤ U.contentLen.toNat := by
  have hb := congrArg List.length U.bytes_eq
  have hpos := U.nonempty p (by rw [h]; simp)
  have hsplit : bodyBytes U.pbufs = bodyBytes (pre ++ [p]) ++ bodyBytes post := by
    rw [h, ← bodyBytes_append, List.append_assoc, List.singleton_append]
  rw [show (U.pbufs.map Pbuf.bytes).flatten = bodyBytes U.pbufs from rfl, hsplit,
    List.length_append, List.length_append] at hb
  rw [U.contentLen_toNat]
  rw [bodyBytes_append, List.length_append, bodyBytes_singleton, p.bytes_length] at hb ⊢
  omega

theorem Upload.first_of_split (h : U.pbufs = pre ++ p :: post) (hB : bodyBytes pre = []) :
    U.preamble.bytes <+: p.head.payload := by
  rcases pre with _ | ⟨q, pre⟩
  · exact U.first p (by rw [h]; rfl)
  · have hpos := U.nonempty q (by rw [h]; simp)
    have hq : q.bytes = [] := (List.append_eq_nil_iff.mp hB).1
    rw [← q.bytes_length, hq, List.length_nil] at hpos
    omega

theorem Upload.taking (wf : WriteFlash F) (f : F) (hu : startsWith uri (bytes "/upload"))
    (h : U.pbufs = pre ++ p :: post)
    (hpre : ∀ q ∈ pre, q.totLen = q.len) :
    Taking wf f c U.contentLen.toNat U.preamble (bodyBytes pre)
      (final (httpPostRxpbuf wf c opens) (accepted wf f c uri U.contentLen.toNat) pre) := by
  have hn : 0 < U.contentLen.toNat := Nat.lt_of_le_of_lt (Nat.zero_le _) (U.short h).1
  refine taking_run opens (accepted_taking wf f U.preamble hu hn) hpre (fun _ q hq => ?_)
    (U.short h).1
  apply U.first q
  rw [h, List.head?_append_of_ne_nil]
  · exact hq
  · rintro rfl
    cases hq

theorem inStep_of_flat (hu : startsWith uri (bytes "/upload"))
    (hflat : ∀ p ∈ U.pbufs, p.totLen = p.len) : CountersAgree wf f opens U c uri := by
  intro pre p post h
  have hp : p.totLen = p.len := hflat p (by rw [h]; simp)
  have htaking := U.taking (c := c) opens wf f hu h
    (fun q hq => hflat q (by rw [h]; exact List.mem_append_left _ hq))
  have hfirst := U.first_of_split h
  have hB : bodyBytes (pre ++ [p]) = bodyBytes pre ++ p.head.payload := by
    rw [bodyBytes_append, bodyBytes_singleton, Pbuf.bytes_of_len hp]
  have hdata := List.length_pos_iff.mpr U.data_ne
  have hn := U.contentLen_toNat
  rw [hB]
  by_cases hlt : (bodyBytes pre ++ p.head.payload).length < U.contentLen.toNat
  · obtain ⟨hnext, hdone⟩ := httpPostRxpbuf_taking opens htaking hp hfirst hlt
    have hleft := hnext.left
    obtain ⟨hcur, hstage, ⟨hnil, -⟩ | ⟨hle, -⟩⟩ := hnext.taken
    · exact absurd hnil (begun hfirst)
    · refine ⟨by omega, ?_, iff_of_false hdone (by omega)⟩
      rw [if_neg (by omega)]
      exact hstage
  · have hge : U.contentLen.toNat ≤ (bodyBytes pre ++ p.head.payload).length := by omega
    have hfin := httpPostRxpbuf_finishes opens htaking hp hfirst hge
    have hcur := hfin.curlen
    refine ⟨by omega, ?_, iff_of_true (hfin.done.mpr (by omega)) hfin.left⟩
    rw [if_pos hfin.left]
    exact hfin.stage

/-- At the first chain with bytes behind its first pbuf the byte counter falls behind. -/
theorem flat_of_inStep (hu : startsWith uri (bytes "/upload"))
    (hagree : CountersAgree wf f opens U c uri) (h : U.pbufs = pre ++ post) :
    ∀ q ∈ pre, q.totLen = q.len := by
  induction pre using List.reverseRecOn generalizing post with
  | nil => simp
  | append_singleton pre p ih =>
    rw [List.append_assoc, List.singleton_append] at h
    have hpre := ih h
    have htaking := U.taking (c := c) opens wf f hu h hpre
    have hfed := feed_fed htaking.taken htaking.short (U.first_of_split h)
    have hcur := (hagree pre p post h).curlen
    have hcur' := hfed.curlen
    rw [httpPostRxpbuf_upd opens htaking.current htaking.running, hcur'] at hcur
    rw [bodyBytes_append, List.length_append, List.length_append, bodyBytes_singleton,
      p.bytes_length] at hcur
    have hle : p.len ≤ p.totLen := Nat.le_add_right _ _
    have hm : U.preamble.bytes.length ≤ (bodyBytes pre).length + p.head.payload.length := by
      rcases htaking.taken.state with ⟨hB, -⟩ | ⟨hm, -⟩
      · have := (U.first_of_split h hB).length_le
        omega
      · omega
    have hlen : p.len = p.head.payload.length := rfl
    intro q hq
    rcases List.mem_append.mp hq with hq | hq
    · exact hpre q hq
    · rw [List.mem_singleton.mp hq]
      omega

end Chains

/-- **When the counters agree.** For every well-formed upload from power-on, cut into any chains,
and whatever the IAP commands answer: after every chain the state machine has taken all bytes of
the chains so far, in order, and it answers `DONE` exactly in the call that brings httpd's count to
0, if and only if no chain has bytes behind its first pbuf. -/
theorem counters_agree_iff (opens : Bool) (U : Upload) (c : Conn) (uri : List UInt8)
    (hu : startsWith uri (bytes "/upload")) :
    CountersAgree wf f opens U c uri ↔ ∀ p ∈ U.pbufs, p.totLen = p.len := by
  constructor
  · exact fun h => flat_of_inStep opens hu h (List.append_nil _).symm
  · exact inStep_of_flat opens hu

theorem counters_agree_pair :
    CountersAgree succeedingFlash {} false (Upload.pair 1 2) 7 (bytes "/upload") :=
  (counters_agree_iff succeedingFlash {} false (Upload.pair 1 2) 7 (bytes "/upload")
    (by decide)).mpr (by decide)

def Upload.chained (x y : UInt8) : Upload where
  preamble := .plain
  data := (Upload.pair x y).data
  pbufs := [⟨⟨Preamble.plain.bytes ++ [x], []⟩, [⟨[y], []⟩], by
    have := Preamble.plain_length x
    have : Preamble.plain.bytes.length = 47 := by decide
    simp only [List.length_append, List.length_singleton, List.map_cons, List.map_nil,
      List.sum_cons, List.sum_nil]
    omega⟩]
  data_ne := (Upload.pair x y).data_ne
  nonempty := by
    intro p hp
    rw [List.mem_singleton.mp hp]
    show 0 < (Preamble.plain.bytes ++ [x]).length + (1 + 0)
    omega
  bytes_eq := rfl
  first := by
    intro p hp
    obtain rfl := Option.some.inj hp
    exact List.prefix_append _ _

/-- With a chain httpd has received everything and finishes the POST, while the state machine waits
for one more byte. -/
theorem chained_not_done :
    (∀ p ∈ (Upload.chained 1 2).pbufs,
      (httpPostRxpbuf succeedingFlash 7 false
          (accepted succeedingFlash {} 7 (bytes "/upload") (Upload.chained 1 2).contentLen.toNat)
          p).1.hs.postContentLenLeft = 0 ∧
        answered (httpPostRxpbuf succeedingFlash 7 false
          (accepted succeedingFlash {} 7 (bytes "/upload") (Upload.chained 1 2).contentLen.toNat)
          p).2 = [.inprogress]) ∧
      ¬ CountersAgree succeedingFlash {} false (Upload.chained 1 2) 7 (bytes "/upload") := by
  refine ⟨by decide, fun h => ?_⟩
  have hdone := (h [] _ [] rfl).done
  revert hdone
  decide

end AdcUdpStream.Loader
