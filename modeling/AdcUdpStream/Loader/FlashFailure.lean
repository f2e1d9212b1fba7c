import AdcUdpStream.Loader.Session

/-!
# Failed flash writes

`write_flash` is replaced by a sequence of return codes: the `k`-th call answers
`codes k` (`codesFlash`). Whether a write failed plays no part in what the state
machine answers (the error branches are commented out), so a failure stays
hidden exactly when the upload is ended (`failure_hidden_iff`): for a complete
upload, when any of its block writes fails.
-/

namespace AdcUdpStream.Loader

open CStr Steps

variable {F : Type} (wf : WriteFlash F)

/-- A `write_flash` whose `k`-th call returns `codes k`. Its state is the number of calls made. -/
def codesFlash (codes : Nat → Nat) : WriteFlash Nat := fun k _ _ _ => (codes k, k + 1)

/-- The pbuf holds the last byte of the file. -/
def LastOfFile (u : Updater F) (q : Segment) : Prop := EndsFile u q.mem q.payload.length

def SomeWriteFailed (codes : Nat → Nat) (es : List Event) : Prop :=
  ∃ k < (final (step (codesFlash codes)) (powerOn 0) es).upd.stage.flash, codes k ≠ cmdSuccess

/-- No `DONE` was returned and no reboot is pending. -/
def NotReported (codes : Nat → Nat) (es : List Event) : Prop :=
  .done ∉ statuses (outs (step (codesFlash codes)) (powerOn 0) es) ∧
    (final (step (codesFlash codes)) (powerOn 0) es).reboot = false

theorem feed_done_iff (u : Updater F) (q : Segment) :
    (feed wf u q).2 = .done ↔ LastOfFile u q :=
  machine_done_iff wf q.length_le_mem

/-- A run of the state machine is answered `DONE` iff it meets a pbuf with the last byte. -/
theorem feed_run_done_iff (u : Updater F) (qs : List Segment) :
    .done ∉ outs (feed wf) u qs ↔ Along (feed wf) (fun u q => ¬ LastOfFile u q) u qs := by
  have houts : Along (feed wf) (fun u q => (feed wf u q).2 ≠ .done) u qs ↔
      ∀ r ∈ outs (feed wf) u qs, r ≠ .done := along_outs
      (P := fun r : FwupdateStatus => r ≠ .done)
  constructor
  · intro h
    refine (houts.mpr fun r hr hd => h (hd ▸ hr)).imp fun u q hne hlast => ?_
    exact hne ((feed_done_iff wf u q).mpr hlast)
  · intro h hmem
    have hne : Along (feed wf) (fun u q => (feed wf u q).2 ≠ .done) u qs :=
      h.imp fun u q hnot hd => hnot ((feed_done_iff wf u q).mp hd)
    exact houts.mp hne .done hmem rfl

theorem upload_calls {U : Upload} {c : Conn} {uri : List UInt8} (codes : Nat → Nat)
    (hU : U.Unchained) (hu : startsWith uri (bytes "/upload")) :
    (final (step (codesFlash codes)) (powerOn 0) (U.events c uri)).upd.stage.flash =
        (U.data.length + 1023) / 1024 ∧
      ¬ NotReported codes (U.events c uri) := by
  obtain ⟨u, hstate, hn, hcur, hstage, -, hupd, hst, -⟩ :=
    upload_run (codesFlash codes) (U := U) (c := c) (s := powerOn 0) hu rfl rfl
  obtain ⟨hfinal, houts⟩ := U.run (codesFlash codes) hU hstate hn hcur
  constructor
  · have hcalls := foldl_calls (codesFlash codes) id (fun _ _ _ _ => rfl) u.stage U.data
    have hcnt := foldl_flashCnt (codesFlash codes) u.stage U.data
    have h0 : (u.stage.flashCnt : Nat) = 0 := by rw [hstage]; rfl
    have hf0 : u.stage.flash = 0 := by rw [hstage]; rfl
    rw [hupd, hfinal, octetStream_done]
    · dsimp only
      rw [writeRest_eq]
      dsimp only
      simp only [id, h0, hf0, Nat.zero_add] at hcalls hcnt
      split
      · show _ + 1 = _
        omega
      · omega
    · rw [hcur]
      simp only [Fwupdate.armed, hn, Upload.contentLen, powerOn, List.length_append]
      omega
  · rintro ⟨hnot, -⟩
    rw [hst, houts, Upload.answers] at hnot
    exact hnot (by simp)

/-- **When a failed write stays unreported.** For one upload from power-on and any return codes of
`write_flash`. Any body in any pbufs: if a write failed, the failure is kept from being reported as
a finished update exactly as long as no pbuf holds the last byte of the file. A complete upload: a
failure never goes with a finished update if and only if none of its block writes fails. -/
theorem failure_hidden_iff (codes : Nat → Nat) (c : Conn) (uri : List UInt8)
    (hu : startsWith uri (bytes "/upload") = true) :
    (∀ (n : Int) (ps : List Pbuf), SomeWriteFailed codes (postEvents c uri n ps) →
        (NotReported codes (postEvents c uri n ps) ↔
          Along (feed (codesFlash codes)) (fun u q => ¬ LastOfFile u q)
            ((powerOn 0).opened c n).upd (ps.map Pbuf.head))) ∧
      ∀ U : Upload, U.Unchained →
        ((SomeWriteFailed codes (U.events c uri) → NotReported codes (U.events c uri)) ↔
          ∀ k < (U.data.length + 1023) / 1024, codes k = cmdSuccess) := by
  constructor
  · intro n ps _
    obtain ⟨-, hst, hreboot⟩ := post_run (codesFlash codes) (c := c) (n := n) (f := 0) ps hu
    rw [← feed_run_done_iff, NotReported, hst]
    constructor
    · exact fun h => h.1
    · intro h
      refine ⟨h, ?_⟩
      by_contra hne
      exact h (hreboot.mp (Bool.not_eq_false _ ▸ hne))
  · intro U hU
    obtain ⟨hcalls, hdone⟩ := upload_calls (c := c) codes hU hu
    unfold SomeWriteFailed
    rw [hcalls]
    constructor
    · intro h k hk
      by_contra hne
      exact hdone (h ⟨k, hk, hne⟩)
    · rintro h ⟨k, hk, hne⟩
      exact absurd (h k hk) hne

def firstFails (k : Nat) : Nat := if k = 0 then 1 else cmdSuccess

theorem failure_hidden_iff_pair :
    (NotReported firstFails (postEvents 1 (bytes "/upload") 49 (Upload.pair 1 2).pbufs) ↔
        Along (feed (codesFlash firstFails)) (fun u q => ¬ LastOfFile u q)
          ((powerOn 0).opened 1 49).upd ((Upload.pair 1 2).pbufs.map Pbuf.head)) ∧
      ((SomeWriteFailed firstFails ((Upload.pair 1 2).events 1 (bytes "/upload")) →
          NotReported firstFails ((Upload.pair 1 2).events 1 (bytes "/upload"))) ↔
        ∀ k < 1, firstFails k = cmdSuccess) :=
  ⟨(failure_hidden_iff firstFails 1 (bytes "/upload") (by decide)).1 49 _
      ⟨0, by decide, by decide⟩,
    (failure_hidden_iff firstFails 1 (bytes "/upload") (by decide)).2 _
      (Upload.pair_unchained 1 2)⟩

/-- The only block write of a two-byte upload fails, and the update is reported as finished. -/
theorem failed_write_reported :
    SomeWriteFailed firstFails ((Upload.pair 1 2).events 1 (bytes "/upload")) ∧
      ¬ NotReported firstFails ((Upload.pair 1 2).events 1 (bytes "/upload")) := by
  refine ⟨⟨0, by decide, by decide⟩, fun h => ?_⟩
  exact absurd h.2 (by decide)

end AdcUdpStream.Loader
