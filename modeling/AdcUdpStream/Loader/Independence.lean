import AdcUdpStream.Loader.Session

/-!
# Does an upload depend on earlier ones?

`httpd_post_begin` sets the state and the content length, but neither the byte
counter nor the block loop. An idle reachable state therefore runs every upload
as power-on does exactly when its byte counter is 0 (`upload_as_powerOn_iff`):
then nothing has ever been streamed and all that is left over is overwritten
when the tag is found, and otherwise a two-byte upload is done one pbuf early.
-/

namespace AdcUdpStream.Loader

open CStr Steps

def issuedOps (s : Post Main) (es : List Event) : List (Nat × List UInt8) :=
  (programOps (final (step succeedingFlash) s es).upd.stage.flash.log).drop
    (programOps s.upd.stage.flash.log).length

def doneAt (s : Post Main) (es : List Event) : List Bool :=
  (statuses (outs (step succeedingFlash) s es)).map fun r => decide (r = .done)

/-- The upload runs from `s` as it runs from power-on. -/
structure AsPowerOn (s : Post Main) (U : Upload) (c : Conn) (uri : List UInt8) : Prop where
  ops : issuedOps s (U.events c uri) = issuedOps (powerOn {}) (U.events c uri)
  done : doneAt s (U.events c uri) = doneAt (powerOn {}) (U.events c uri)

section

variable {s : Post Main} {U : Upload} {c : Conn} {uri : List UInt8}

theorem Fwupdate.armed_congr {fw fw' : Fwupdate} (h : fw.contentLength = fw'.contentLength)
    (m : Int) : fw.armed m = fw'.armed m := by
  simp only [Fwupdate.armed, h]

/-- **The first pbuf makes two machines equal** that differ in what earlier uploads left in
`fwupdate` only, and so the runs over the whole body are the same. -/
theorem Upload.run_congr {F : Type} (wf : WriteFlash F) {u v : Updater F}
    (hu : u.fwupdate.state = .octetStart) (hv : v.fwupdate.state = .octetStart)
    (hun : u.fwupdate.contentLength = U.contentLen)
    (hvn : v.fwupdate.contentLength = U.contentLen) (huc : u.curlen = 0) (hvc : v.curlen = 0)
    (hst : u.stage = v.stage) :
    final (feed wf) u U.segments = final (feed wf) v U.segments ∧
      outs (feed wf) u U.segments = outs (feed wf) v U.segments := by
  rcases hp : U.pbufs with _ | ⟨p, ps⟩
  · exact absurd hp U.pbufs_ne
  · have hpre : U.preamble.bytes <+: p.head.payload := U.first p (by rw [hp]; rfl)
    obtain ⟨o, htag, ho⟩ := U.preamble.strstr_mem hpre
    have hdata := List.length_pos_iff.mpr U.data_ne
    have hlen : U.contentLen = (U.preamble.bytes.length + U.data.length : Nat) := by
      rw [Upload.contentLen, List.length_append]
    have harmed : ({ u with fwupdate := u.fwupdate.armed U.preamble.bytes.length } : Updater F) =
        { v with fwupdate := v.fwupdate.armed U.preamble.bytes.length } := by
      simp only [Fwupdate.armed_congr (hun.trans hvn.symm), huc, hvc, hst]
    have hfeed : feed wf u p.head = feed wf v p.head := by
      rw [feed_preamble wf hu hpre htag ho (.inr (by omega)),
        feed_preamble wf hv hpre htag ho (.inr (by omega)), harmed]
    rw [Upload.segments, hp, List.map_cons, final_cons, final_cons, outs_cons, outs_cons, hfeed]
    exact ⟨rfl, rfl⟩

theorem asPowerOn_of_stage (hu : startsWith uri (bytes "/upload"))
    (hc : s.currentConnection = none) (hj : s.jumped = false) (hcur : s.upd.curlen = 0)
    (hstage : s.upd.stage = Stage.init) : AsPowerOn s U c uri := by
  obtain ⟨u, h1, h2, h3, h4, -, hupd, hst, -⟩ :=
    upload_run succeedingFlash (U := U) (c := c) hu hc hj
  obtain ⟨v, k1, k2, k3, k4, -, kupd, kst, -⟩ :=
    upload_run succeedingFlash (U := U) (c := c) (s := powerOn {}) hu rfl rfl
  obtain ⟨hfinal, houts⟩ := U.run_congr succeedingFlash h1 k1 h2 k2 (h3.trans hcur) k3
    ((h4.trans hstage).trans k4.symm)
  constructor
  · unfold issuedOps
    rw [hupd, kupd, hfinal, hstage]
    rfl
  · unfold doneAt
    rw [hst, kst, houts]

theorem pair_done_early (hc : s.currentConnection = none) (hj : s.jumped = false)
    (hcur : 0 < s.upd.curlen) :
    ∃ rest, doneAt s ((Upload.pair 0 0).events c (bytes "/upload")) = true :: rest := by
  have hu : startsWith (bytes "/upload") (bytes "/upload") = true := by decide
  obtain ⟨u, hstate, hn, hcl, -, -, -, hst, -⟩ :=
    upload_run succeedingFlash (U := Upload.pair 0 0) (c := c) hu hc hj
  have hseg : (Upload.pair 0 0).segments =
      [⟨Preamble.plain.bytes ++ [0], []⟩, ⟨[0], []⟩] := rfl
  have hpre : Preamble.plain.bytes <+: Preamble.plain.bytes ++ [0] := List.prefix_append _ _
  have hplain : Preamble.plain.bytes.length = 47 := by decide
  have hlen : (Upload.pair 0 0).contentLen = 49 := by decide
  obtain ⟨o, htag, ho⟩ := Preamble.plain.strstr_mem (q := ⟨Preamble.plain.bytes ++ [0], []⟩) hpre
  have hfirst := feed_preamble succeedingFlash hstate hpre htag ho
    (.inl (by rw [List.length_append, List.length_singleton]; omega))
  have hdone : (feed succeedingFlash u ⟨Preamble.plain.bytes ++ [0], []⟩).2 = .done := by
    rw [hfirst, octetStream_done]
    simp only [Fwupdate.armed, hn, hlen, hplain, List.drop_left', List.length_singleton]
    omega
  rw [hseg, outs_cons] at hst
  unfold doneAt
  rw [hst, List.map_cons, hdone]
  exact ⟨_, rfl⟩

end

/-- **When an upload does not depend on earlier ones.** For every idle state reached by any calls,
every IAP command succeeding: all well-formed uploads program the same blocks and end on the same
pbuf as from power-on, if and only if no file byte has been streamed before. -/
theorem upload_as_powerOn_iff (es : List Event)
    (hc : (final (step succeedingFlash) (powerOn {}) es).currentConnection = none)
    (hj : (final (step succeedingFlash) (powerOn {}) es).jumped = false) :
    (∀ (U : Upload) (c : Conn) (uri : List UInt8), startsWith uri (bytes "/upload") = true →
        AsPowerOn (final (step succeedingFlash) (powerOn {}) es) U c uri) ↔
      (final (step succeedingFlash) (powerOn {}) es).upd.curlen = 0 := by
  obtain ⟨hpos, hstage⟩ := reachable_untouched succeedingFlash (f := {}) es
  generalize final (step succeedingFlash) (powerOn {}) es = s at *
  constructor
  · intro h
    by_contra hne
    have hsame := (h (.pair 0 0) 0 (bytes "/upload") (by decide)).done
    obtain ⟨rest, hearly⟩ := pair_done_early (c := 0) hc hj (by omega)
    have hpower : doneAt (powerOn {}) ((Upload.pair 0 0).events 0 (bytes "/upload")) =
        [false, true] := by decide
    rw [hearly, hpower] at hsame
    exact absurd (List.head_eq_of_cons_eq hsame) (by decide)
  · intro h0 U c uri hu
    exact asPowerOn_of_stage hu hc hj h0 (hstage h0)

def malformedUpload : List Event :=
  [.postBegin 1 (bytes "/upload") 3, .receiveData 1 (.single [1, 2, 3] (by decide)),
    .postFinished 1]

theorem upload_as_powerOn_malformed :
    (∀ (U : Upload) (c : Conn) (uri : List UInt8), startsWith uri (bytes "/upload") = true →
        AsPowerOn (final (step succeedingFlash) (powerOn {}) malformedUpload) U c uri) ↔
      (final (step succeedingFlash) (powerOn {}) malformedUpload).upd.curlen = 0 :=
  upload_as_powerOn_iff malformedUpload (by decide) (by decide)

/-- A client sends the first file byte of two and closes. -/
def abortedUpload : List Event :=
  [.postBegin 1 (bytes "/upload") 49,
    .receiveData 1 (.opening 0),
    .postFinished 1]

/-- After an aborted upload the next one is done one pbuf early. -/
theorem upload_after_abort :
    (final (step succeedingFlash) (powerOn {}) abortedUpload).currentConnection = none ∧
      (final (step succeedingFlash) (powerOn {}) abortedUpload).jumped = false ∧
      ¬ AsPowerOn (final (step succeedingFlash) (powerOn {}) abortedUpload) (.pair 0 0) 2
        (bytes "/upload") := by
  refine ⟨by decide, by decide, fun h => ?_⟩
  have := h.done
  revert this
  decide

end AdcUdpStream.Loader
