import AdcUdpStream.Lib.Steps
import AdcUdpStream.Loader.Machine

/-!
# Runs over the pbufs of a body

`feed` is the state machine as a step on pbufs. Once the stream is open, a run
over the pbufs of a body is one `octetStream` over their bytes (`stream_run`);
with the multipart preamble in the first pbuf it is one over the bytes behind it
(`body_run`). `receive_run` carries runs of `feed` over to the callbacks.

An `Upload` is a body with its declared length, cut into pbufs whose first one
holds the whole preamble; a `Preamble` is NUL-free and ends with the first
occurrence of the tag.
-/

namespace AdcUdpStream.Loader

open CStr Steps

/-! ## Feeding pbufs -/

/-- The state machine on the first segment of a pbuf: `p->payload`, `p->len`. -/
def feed {F : Type} (wf : WriteFlash F) (u : Updater F) (q : Segment) :
    Updater F × FwupdateStatus :=
  fwupdateMultipartStateMachine wf u q.mem q.payload.length

def payloads (qs : List Segment) : List UInt8 := (qs.map Segment.payload).flatten

@[simp] theorem payloads_nil : payloads [] = [] := rfl

@[simp] theorem payloads_cons (q : Segment) (qs : List Segment) :
    payloads (q :: qs) = q.payload ++ payloads qs := rfl

theorem payloads_append (qs rs : List Segment) :
    payloads (qs ++ rs) = payloads qs ++ payloads rs := by
  simp [payloads]

theorem Segment.mem_take (q : Segment) : q.mem.take q.payload.length = q.payload := by
  rw [Segment.mem, List.take_left]

theorem Segment.length_le_mem (q : Segment) : q.payload.length ≤ q.mem.length := by
  rw [Segment.mem, List.length_append]
  omega

def bodyBytes (ps : List Pbuf) : List UInt8 := (ps.map Pbuf.bytes).flatten

theorem bodyBytes_append (ps qs : List Pbuf) :
    bodyBytes (ps ++ qs) = bodyBytes ps ++ bodyBytes qs := by
  rw [bodyBytes, List.map_append, List.flatten_append]
  rfl

theorem bodyBytes_singleton (p : Pbuf) : bodyBytes [p] = p.bytes := List.append_nil _

theorem Pbuf.bytes_length (p : Pbuf) : p.bytes.length = p.totLen := by
  simp [Pbuf.bytes, Pbuf.totLen, Pbuf.len, List.length_flatten, List.map_map, Function.comp_def]

theorem Pbuf.bytes_of_len {p : Pbuf} (h : p.totLen = p.len) : p.bytes = p.head.payload := by
  have hlen := p.bytes_length
  rw [h, Pbuf.bytes, List.length_append, Pbuf.len] at hlen
  have hnil : (p.next.map Segment.payload).flatten = [] :=
    List.eq_nil_of_length_eq_zero (by omega)
  rw [Pbuf.bytes, hnil, List.append_nil]

theorem Pbuf.totLen_of_next {p : Pbuf} (h : p.next = []) : p.totLen = p.len := by
  rw [Pbuf.totLen, h]
  rfl

section Feed

variable {F : Type} (wf : WriteFlash F) {u : Updater F} {q : Segment} {qs : List Segment}

theorem feed_empty (h : q.payload = []) : feed wf u q = (u, .none) := by
  unfold feed
  rw [h]
  exact machine_empty wf u

theorem feed_stream (hs : u.fwupdate.state = .octetStream) (hq : q.payload ≠ []) :
    feed wf u q = octetStream wf u q.payload := by
  unfold feed
  rw [machine_octetStream wf hs (List.length_pos_iff.mpr hq), q.mem_take]

/-- **A run over pbufs streams their bytes**, when only the last pbuf can end the file. -/
theorem stream_run : ∀ (q : Segment) (qs : List Segment) (u : Updater F),
    u.fwupdate.state = .octetStream → (∀ r ∈ q :: qs, r.payload ≠ []) →
    u.curlen + (payloads (q :: qs).dropLast).length < u.fwupdate.fileLength →
    final (feed wf) u (q :: qs) = (octetStream wf u (payloads (q :: qs))).1 ∧
      outs (feed wf) u (q :: qs) =
        List.replicate qs.length .inprogress ++ [(octetStream wf u (payloads (q :: qs))).2]
  | q, [], u, hs, hne, _ => by
    have hq := feed_stream wf hs (hne q (List.mem_cons_self ..))
    simp [hq]
  | q, r :: rs, u, hs, hne, hlt => by
    rw [List.dropLast_cons_cons, payloads_cons, List.length_append, Int.natCast_add] at hlt
    have hq := feed_stream wf hs (hne q (List.mem_cons_self ..))
    have hgo : u.curlen + q.payload.length < u.fwupdate.fileLength := by omega
    have hstep := octetStream_inprogress wf hgo
    obtain ⟨hfinal, houts⟩ := stream_run r rs (octetStream wf u q.payload).1
      (by rw [hstep]; exact hs) (fun t ht => hne t (List.mem_cons_of_mem _ ht))
      (by rw [hstep]; dsimp only; omega)
    have hjoin := octetStream_append wf (payloads (r :: rs)) hgo
    rw [hjoin] at hfinal houts
    have hret : (octetStream wf u q.payload).2 = .inprogress := by rw [hstep]
    rw [final_cons, outs_cons, hq, hfinal, houts, hret, payloads_cons q]
    exact ⟨rfl, rfl⟩

theorem feed_preamble {P : List UInt8} {o : Nat} (hs : u.fwupdate.state = .octetStart)
    (hP : P <+: q.payload) (htag : strstr q.mem octetStreamTag = some o)
    (ho : o + octetStreamTag.length = P.length)
    (hrest : P.length < q.payload.length ∨ u.curlen < u.fwupdate.contentLength - P.length) :
    feed wf u q =
      octetStream wf { u with fwupdate := u.fwupdate.armed P.length }
        (q.payload.drop P.length) := by
  have hle := hP.length_le
  have hpos : 0 < octetStreamTag.length := by decide
  unfold feed
  by_cases hlt : P.length < q.payload.length
  · rw [machine_octetStart_some wf hs (by omega) htag ho.symm hlt, q.mem_take]
  · have hend : q.payload.drop P.length = [] := List.drop_eq_nil_of_le (by omega)
    have hgo : u.curlen + ([] : List UInt8).length < u.fwupdate.contentLength - P.length := by
      rw [List.length_nil]
      omega
    rw [machine_octetStart_end wf hs (by omega) htag ho.symm (by omega), hend]
    rw [octetStream_inprogress wf (u := { u with fwupdate := u.fwupdate.armed P.length }) hgo]
    simp only [List.length_nil, Int.natCast_zero, Int.add_zero, List.foldl_nil]

/-- **A run over the pbufs of a body streams the bytes behind the preamble**, when only the last
pbuf can end the file. -/
theorem body_run {P : List UInt8} {o : Nat} (hs : u.fwupdate.state = .octetStart)
    (hP : P <+: q.payload) (htag : strstr q.mem octetStreamTag = some o)
    (ho : o + octetStreamTag.length = P.length) (hne : ∀ r ∈ qs, r.payload ≠ [])
    (hrest : P.length < q.payload.length ∨ u.curlen < u.fwupdate.contentLength - P.length)
    (hlast : qs ≠ [] →
      u.curlen + (payloads (q :: qs).dropLast).length < u.fwupdate.contentLength) :
    final (feed wf) u (q :: qs) =
        (octetStream wf { u with fwupdate := u.fwupdate.armed P.length }
          ((payloads (q :: qs)).drop P.length)).1 ∧
      outs (feed wf) u (q :: qs) =
        List.replicate qs.length .inprogress ++
          [(octetStream wf { u with fwupdate := u.fwupdate.armed P.length }
            ((payloads (q :: qs)).drop P.length)).2] := by
  have hle := hP.length_le
  have hfirst := feed_preamble wf hs hP htag ho hrest
  rcases qs with _ | ⟨r, rs⟩
  · simp [hfirst]
  · have hlast := hlast (List.cons_ne_nil _ _)
    rw [List.dropLast_cons_cons, payloads_cons, List.length_append, Int.natCast_add] at hlast
    have hgo : ({ u with fwupdate := u.fwupdate.armed P.length } : Updater F).curlen +
        (q.payload.drop P.length).length < u.fwupdate.contentLength - P.length := by
      rw [List.length_drop]
      dsimp only
      omega
    have hstep := octetStream_inprogress wf
      (u := { u with fwupdate := u.fwupdate.armed P.length }) hgo
    have hjoin := octetStream_append wf
      (u := { u with fwupdate := u.fwupdate.armed P.length }) (payloads (r :: rs)) hgo
    obtain ⟨hfinal, houts⟩ := stream_run wf r rs
      (octetStream wf { u with fwupdate := u.fwupdate.armed P.length }
        (q.payload.drop P.length)).1
      (by rw [hstep]; rfl) hne (by
        rw [hstep]
        simp only [List.length_drop, Fwupdate.armed]
        omega)
    rw [hjoin, ← List.drop_append_of_le_length hle, ← payloads_cons] at hfinal houts
    have hret : (octetStream wf { u with fwupdate := u.fwupdate.armed P.length }
        (q.payload.drop P.length)).2 = .inprogress := by rw [hstep]
    rw [final_cons, outs_cons, hfirst, hfinal, houts, hret]
    exact ⟨rfl, rfl⟩

end Feed

/-! ## Uploads -/

/-- A multipart preamble: no NUL, and it ends with the first occurrence of the tag. -/
structure Preamble where
  bytes : List UInt8
  noNul : 0 ∉ bytes
  tag : ∃ o, find octetStreamTag bytes = some o ∧ o + octetStreamTag.length = bytes.length

/-- The preamble is found by `strstr` wherever a buffer starts with it. -/
theorem Preamble.strstr_mem (P : Preamble) {q : Segment} (h : P.bytes <+: q.payload) :
    ∃ o, strstr q.mem octetStreamTag = some o ∧ o + octetStreamTag.length = P.bytes.length := by
  obtain ⟨o, ho, hlen⟩ := P.tag
  obtain ⟨rest, hrest⟩ := h
  refine ⟨o, ?_, hlen⟩
  have hstr : strstr P.bytes octetStreamTag = some o := by rw [strstr, cstr_of_noNul P.noNul, ho]
  rw [Segment.mem, ← hrest, List.append_assoc]
  exact strstr_append hstr

theorem Preamble.length_pos (P : Preamble) : 0 < P.bytes.length := by
  obtain ⟨o, -, hlen⟩ := P.tag
  have : 0 < octetStreamTag.length := by decide
  omega

/-- A body, and how it is delivered: chains with at least one byte each, the first segment of the
first holding the preamble. -/
structure Upload where
  preamble : Preamble
  data : List UInt8
  pbufs : List Pbuf
  data_ne : data ≠ []
  nonempty : ∀ p ∈ pbufs, 0 < p.totLen
  bytes_eq : (pbufs.map Pbuf.bytes).flatten = preamble.bytes ++ data
  first : ∀ p ∈ pbufs.head?, preamble.bytes <+: p.head.payload

namespace Upload

variable (U : Upload)

def contentLen : Int := (U.preamble.bytes ++ U.data).length

/-- `p->len = p->tot_len`: nothing is chained. -/
def Unchained : Prop := ∀ p ∈ U.pbufs, p.next = []

def events (c : Conn) (uri : List UInt8) : List Event :=
  .postBegin c uri U.contentLen :: U.pbufs.map (Event.receiveData c)

def segments : List Segment := U.pbufs.map Pbuf.head

def answers : List FwupdateStatus := List.replicate (U.pbufs.length - 1) .inprogress ++ [.done]

theorem pbufs_ne : U.pbufs ≠ [] := by
  intro h
  have hb := U.bytes_eq
  rw [h] at hb
  exact U.data_ne (List.append_eq_nil_iff.mp hb.symm).2

variable {U}

theorem payloads_segments (h : U.Unchained) : payloads U.segments = U.preamble.bytes ++ U.data := by
  have hmap : U.segments.map Segment.payload = U.pbufs.map Pbuf.bytes := by
    rw [segments, List.map_map]
    exact List.map_congr_left fun p hp => (Pbuf.bytes_of_len (Pbuf.totLen_of_next (h p hp))).symm
  rw [payloads, hmap, U.bytes_eq]

theorem segment_ne (h : U.Unchained) : ∀ q ∈ U.segments, q.payload ≠ [] := by
  intro q hq
  obtain ⟨p, hp, rfl⟩ := List.mem_map.mp hq
  have hpos := U.nonempty p hp
  rw [Pbuf.totLen_of_next (h p hp)] at hpos
  exact List.length_pos_iff.mp hpos

/-- **A well-formed upload streams its data.** -/
theorem run {F : Type} (wf : WriteFlash F) {u : Updater F} (h : U.Unchained)
    (hs : u.fwupdate.state = .octetStart) (hn : u.fwupdate.contentLength = U.contentLen)
    (hc : u.curlen = 0) :
    final (feed wf) u U.segments =
        (octetStream wf { u with fwupdate := u.fwupdate.armed U.preamble.bytes.length } U.data).1 ∧
      outs (feed wf) u U.segments = U.answers := by
  have hbytes := payloads_segments h
  have hne := segment_ne h
  rcases hp : U.pbufs with _ | ⟨p, ps⟩
  · exact absurd hp U.pbufs_ne
  · have hseg : U.segments = p.head :: ps.map Pbuf.head := by rw [segments, hp, List.map_cons]
    have hpre : U.preamble.bytes <+: p.head.payload := U.first p (by rw [hp]; rfl)
    obtain ⟨o, htag, ho⟩ := U.preamble.strstr_mem hpre
    have hlen : U.contentLen = (U.preamble.bytes.length + U.data.length : Nat) := by
      rw [contentLen, List.length_append]
    have hdata : 0 < U.data.length := List.length_pos_iff.mpr U.data_ne
    rw [hseg] at hbytes hne ⊢
    -- the pbufs before the last one hold less than the body
    have hlast : ps.map Pbuf.head ≠ [] → u.curlen +
        (payloads (p.head :: ps.map Pbuf.head).dropLast).length < u.fwupdate.contentLength := by
      intro _
      have hsplit := List.dropLast_append_getLast (List.cons_ne_nil p.head (ps.map Pbuf.head))
      have hlastne := hne _ (List.getLast_mem (List.cons_ne_nil p.head (ps.map Pbuf.head)))
      rw [← hsplit, payloads_append, payloads_cons, payloads_nil, List.append_nil] at hbytes
      have hsum := congrArg List.length hbytes
      rw [List.length_append, List.length_append] at hsum
      have := List.length_pos_iff.mpr hlastne
      omega
    obtain ⟨hfinal, houts⟩ := body_run wf hs hpre htag ho
      (fun r hr => hne r (List.mem_cons_of_mem _ hr)) (.inr (by omega)) hlast
    rw [hbytes, List.drop_left] at hfinal houts
    have hdone : (octetStream wf { u with fwupdate := u.fwupdate.armed U.preamble.bytes.length }
        U.data).2 = .done := by
      rw [octetStream_done]
      simp only [Fwupdate.armed]
      omega
    rw [hfinal, houts, hdone, answers, hp, List.length_cons, List.length_map]
    exact ⟨rfl, rfl⟩

end Upload

/-! ## A small upload -/

def Pbuf.single (xs : List UInt8) (h : xs.length < 0x10000) : Pbuf := ⟨⟨xs, []⟩, [], h⟩

def Preamble.plain : Preamble where
  bytes := CStr.bytes "--b\r\nContent-Type: application/octet-stream\r\n\r\n"
  noNul := by decide
  tag := ⟨19, by decide, by decide⟩

theorem Preamble.plain_length (x : UInt8) : (Preamble.plain.bytes ++ [x]).length < 0x10000 := by
  have : Preamble.plain.bytes.length = 47 := by decide
  rw [List.length_append, List.length_singleton, this]
  decide

def Pbuf.byte (x : UInt8) : Pbuf :=
  .single [x] (Nat.lt_of_lt_of_le Nat.one_lt_two (by decide))

def Pbuf.opening (x : UInt8) : Pbuf :=
  .single (Preamble.plain.bytes ++ [x]) (Preamble.plain_length x)

def Upload.pair (x y : UInt8) : Upload where
  preamble := .plain
  data := [x, y]
  pbufs := [.opening x, .byte y]
  data_ne := List.cons_ne_nil _ _
  nonempty := by
    intro p hp
    rcases List.mem_cons.mp hp with rfl | hp
    · show 0 < (Preamble.plain.bytes ++ [x]).length + 0
      rw [List.length_append, List.length_singleton]
      omega
    · rw [List.mem_singleton.mp hp]
      show 0 < 1
      decide
  bytes_eq := rfl
  first := by
    intro p hp
    obtain rfl : Pbuf.opening x = p := Option.some.inj hp
    exact List.prefix_append _ _

theorem Upload.pair_unchained (x y : UInt8) : (Upload.pair x y).Unchained := by
  intro p hp
  rcases List.mem_pair.mp hp with rfl | rfl
  · rfl
  · rfl

/-! ## Runs of the callbacks -/

section Post

variable {F : Type} (wf : WriteFlash F) {s : Post F} {c : Conn}

def statuses (as : List Answer) : List FwupdateStatus := as.filterMap Answer.status

theorem begin_accepted {uri : List UInt8} {n : Int} (hu : startsWith uri (bytes "/upload"))
    (hc : s.currentConnection ≠ some c) :
    httpdPostBegin s c uri n =
      ({ s with
          upd.fwupdate.state := .octetStart
          upd.fwupdate.contentLength := n
          currentConnection := some c
          validConnection := none },
        { responseUri := some "/loginfail.html" }) := by
  unfold httpdPostBegin
  rw [if_pos hu, if_pos hc]

theorem receive_current {p : Pbuf} (hc : s.currentConnection = some c) :
    ∃ cl, httpdPostReceiveData wf s c p =
      ({ s with
          upd := (feed wf s.upd p.head).1
          close := cl
          reboot := s.reboot || decide ((feed wf s.upd p.head).2 = .done) },
        { status := some (feed wf s.upd p.head).2 }) := by
  have hm : fwupdateMultipartStateMachine wf s.upd p.head.mem p.len = feed wf s.upd p.head := rfl
  unfold httpdPostReceiveData
  rw [if_pos hc, hm]
  obtain ⟨u, ret⟩ := feed wf s.upd p.head
  cases ret with
  | none => exact ⟨s.close, by simp⟩
  | inprogress => exact ⟨false, by simp⟩
  | done => exact ⟨true, by simp⟩
  | error => exact ⟨true, by simp⟩

theorem step_receive (p : Pbuf) (hc : s.currentConnection = some c) (hj : s.jumped = false) :
    ∃ s', step wf s (.receiveData c p) = (s', { status := some (feed wf s.upd p.head).2 }) ∧
      s'.upd = (feed wf s.upd p.head).1 ∧ s'.currentConnection = some c ∧ s'.jumped = false ∧
      (s'.reboot = true ↔ s.reboot = true ∨ (feed wf s.upd p.head).2 = .done) := by
  obtain ⟨cl, hstep⟩ := receive_current wf (p := p) hc
  have hs : step wf s (.receiveData c p) = httpdPostReceiveData wf s c p := by
    unfold step
    rw [hj]
    rfl
  refine ⟨_, hs.trans hstep, rfl, hc, hj, ?_⟩
  simp only [Bool.or_eq_true, decide_eq_true_eq]

theorem receive_run (ps : List Pbuf) (hc : s.currentConnection = some c) (hj : s.jumped = false) :
    (final (step wf) s (ps.map (Event.receiveData c))).upd =
        final (feed wf) s.upd (ps.map Pbuf.head) ∧
      statuses (outs (step wf) s (ps.map (Event.receiveData c))) =
        outs (feed wf) s.upd (ps.map Pbuf.head) ∧
      (final (step wf) s (ps.map (Event.receiveData c))).currentConnection = some c ∧
      (final (step wf) s (ps.map (Event.receiveData c))).jumped = false ∧
      ((final (step wf) s (ps.map (Event.receiveData c))).reboot = true ↔
        s.reboot = true ∨ .done ∈ outs (feed wf) s.upd (ps.map Pbuf.head)) := by
  induction ps generalizing s with
  | nil => simp [statuses, hc, hj]
  | cons p ps ih =>
    obtain ⟨s', hs, hupd, hc', hj', hreboot⟩ := step_receive wf p hc hj
    obtain ⟨h1, h2, h3, h4, h5⟩ := ih hc' hj'
    rw [hupd] at h1 h2 h5
    simp only [List.map_cons, final_cons, outs_cons, hs]
    refine ⟨h1, ?_, h3, h4, ?_⟩
    · rw [← h2]
      rfl
    · rw [h5, hreboot, List.mem_cons, or_assoc, eq_comm (a := FwupdateStatus.done)]

end Post

end AdcUdpStream.Loader
