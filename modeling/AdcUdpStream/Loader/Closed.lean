import AdcUdpStream.Loader.Session

/-!
# After a failed or finished upload

`DONE` and the errors put the machine into `HEADER`, and nothing closes the
connection: later pbufs of the same POST are still parsed there. A pbuf that
does not read as an upload's POST header with a length leaves everything as it
is, so the upload stays closed as long as no such pbuf comes (`closed_stays`).
-/

namespace AdcUdpStream.Loader

open CStr Steps

variable {F : Type} (wf : WriteFlash F)

def NoBegin (s : Post F) : Event → Prop
  | .postBegin c uri _ => ¬ Accepts s c uri
  | _ => True

/-- The call is data of the current connection that reads as a POST header with a length. -/
def ReadsAsHeader (s : Post F) : Event → Prop
  | .receiveData c p => s.currentConnection = some c ∧ isPostHeader p.head.mem p.len = true ∧
    strstr p.head.mem contentLengthTag ≠ none
  | _ => False

/-- The machine waits in `HEADER`, with the stage and the content length of `s`. -/
structure ClosedAs (s t : Post F) : Prop where
  state : t.upd.fwupdate.state = .header
  stage : t.upd.stage = s.upd.stage
  contentLength : t.upd.fwupdate.contentLength = s.upd.fwupdate.contentLength

/-- A pbuf that does not read as a header with a length changes neither stage nor length. -/
theorem feed_not_header {u : Updater F} {q : Segment} (hs : u.fwupdate.state = .header)
    (h : ¬ (isPostHeader q.mem q.payload.length = true ∧ strstr q.mem contentLengthTag ≠ none)) :
    ∃ ret, feed wf u q = (u, ret) ∧ ret ≠ .done := by
  have hparse : parseHeader q.mem q.payload.length = none := by
    unfold parseHeader
    split
    · next hp =>
      have htag : strstr q.mem contentLengthTag = none := by
        by_contra hne
        exact h ⟨hp, hne⟩
      rw [htag, Option.bind_none]
    · rfl
  obtain ⟨n, ret, hf, hret, h1, h2⟩ := feed_header wf hs hparse
  have hn : n = u.fwupdate.contentLength := by
    by_cases hp : isPostHeader q.mem q.payload.length = true
    · apply h2
      by_contra hne
      exact h ⟨hp, hne⟩
    · exact h1 (Bool.not_eq_true _ ▸ hp)
  exact ⟨ret, by rw [hf, hn], hret⟩

theorem closedAs_step {s t : Post F} {e : Event} (h : ClosedAs s t) (hb : NoBegin t e)
    (hh : ¬ ReadsAsHeader t e) :
    ClosedAs s (step wf t e).1 ∧ (step wf t e).2.status ≠ some .done := by
  have hcall := step_call wf t e
  generalize step wf t e = r at hcall ⊢
  cases hcall with
  | accepted hj ha => exact absurd ha hb
  | @fed c p s' hj hc hupd hc' hj' hreboot =>
    obtain ⟨ret, hf, hret⟩ := feed_not_header wf (q := p.head) h.state fun hp => hh ⟨hc, hp⟩
    rw [hf] at hupd ⊢
    refine ⟨⟨?_, ?_, ?_⟩, fun hd => hret (Option.some.inj hd)⟩
    · rw [hupd, h.state]
    · rw [hupd, h.stage]
    · rw [hupd, h.contentLength]
  | _ => exact ⟨⟨h.state, h.stage, h.contentLength⟩, by simp⟩

theorem closedAs_start {s : Post F} {c : Conn} {p : Pbuf}
    (h : (step wf s (.receiveData c p)).2.status = some .done ∨
      (step wf s (.receiveData c p)).2.status = some .error) :
    ClosedAs (step wf s (.receiveData c p)).1 (step wf s (.receiveData c p)).1 := by
  have hcall := step_call wf s (.receiveData c p)
  generalize step wf s (.receiveData c p) = r at hcall h ⊢
  cases hcall with
  | fed hj hc hupd hc' hj' hreboot =>
    refine ⟨?_, rfl, rfl⟩
    rw [hupd]
    exact feed_terminal wf (h.imp Option.some.inj Option.some.inj)
  | _ => simp at h

/-- **A failed or finished upload stays closed** until a begin is accepted, as long as no later
pbuf of the connection reads as an upload's POST header with a length: flash, the block loop and
the content length stay, and there is no further `DONE`, whatever `write_flash` answers. -/
theorem closed_stays (s : Post F) (c : Conn) (p : Pbuf) (es : List Event)
    (hend : (step wf s (.receiveData c p)).2.status = some .done ∨
      (step wf s (.receiveData c p)).2.status = some .error)
    (hb : Along (step wf) NoBegin (step wf s (.receiveData c p)).1 es)
    (hh : Along (step wf) (fun t e => ¬ ReadsAsHeader t e) (step wf s (.receiveData c p)).1 es) :
    ClosedAs (step wf s (.receiveData c p)).1
        (final (step wf) (step wf s (.receiveData c p)).1 es) ∧
      .done ∉ statuses (outs (step wf) (step wf s (.receiveData c p)).1 es) := by
  have hstart := closedAs_start wf hend
  generalize (step wf s (.receiveData c p)).1 = t at *
  have hguard := (along_and _ _).mpr ⟨hb, hh⟩
  constructor
  · exact final_inv (I := ClosedAs t) (fun _ _ h hq => (closedAs_step wf h hq.1 hq.2).1)
      hstart hguard
  · have houts := outs_of_inv (I := ClosedAs t) (P := fun a => a.status ≠ some .done)
      (fun _ _ h hq => (closedAs_step wf h hq.1 hq.2).1)
      (fun _ _ h hq => (closedAs_step wf h hq.1 hq.2).2) hstart hguard
    intro hmem
    obtain ⟨a, ha, had⟩ := List.mem_filterMap.mp hmem
    exact houts a ha had

/-- A body without the tag: the machine answers `ERROR`. -/
def refusedBody : Pbuf := .single [65] (by decide)

theorem closed_stays_refused :
    ClosedAs (step succeedingFlash ((powerOn {}).opened 1 200) (.receiveData 1 refusedBody)).1
        (final (step succeedingFlash)
          (step succeedingFlash ((powerOn {}).opened 1 200) (.receiveData 1 refusedBody)).1
          [.receiveData 1 refusedBody]) ∧
      .done ∉ statuses (outs (step succeedingFlash)
        (step succeedingFlash ((powerOn {}).opened 1 200) (.receiveData 1 refusedBody)).1
        [.receiveData 1 refusedBody]) := by
  apply closed_stays succeedingFlash
  · decide
  · exact (along_cons _ _ _).mpr ⟨trivial, trivial⟩
  · refine (along_cons _ _ _).mpr ⟨fun h => ?_, trivial⟩
    exact absurd h.2.1 (by decide)

/-- Body bytes that read as a POST header, with a tag and one file byte behind it. -/
def headerInBody : Pbuf :=
  .single (bytes
    "POST /upload\r\nContent-Length:29\r\n\r\napplication/octet-stream\r\n\r\nA") (by decide)

/-- After `ERROR` the next pbuf of the same POST is answered `DONE`, with a byte stored. -/
theorem refused_body_done :
    statuses (outs (step succeedingFlash) (powerOn {})
        [.postBegin 1 (bytes "/upload") 200, .receiveData 1 refusedBody,
          .receiveData 1 headerInBody]) = [.error, .done] ∧
      (final (step succeedingFlash) (powerOn {})
        [.postBegin 1 (bytes "/upload") 200, .receiveData 1 refusedBody,
          .receiveData 1 headerInBody]).upd.fwupdate.contentLength = 29 ∧
      programOps (final (step succeedingFlash) (powerOn {})
        [.postBegin 1 (bytes "/upload") 200, .receiveData 1 refusedBody,
          .receiveData 1 headerInBody]).upd.stage.flash.log ≠ [] := by
  refine ⟨by decide, by decide, by decide⟩

end AdcUdpStream.Loader
