import AdcUdpStream.Loader.Image

/-!
# Calls and sessions

`Call` lists what one call of httpd can do to the statics, one constructor for
each outcome (`step_call`); `feed_cases` and `feed_octetStart` do the same for
the state machine. From them: the byte counter never goes back, what every block
write keeps every call keeps (`step_kept`), and as long as the counter is 0 the block
loop has the values of power-on (`reachable_untouched`).
-/

namespace AdcUdpStream.Loader

open CStr Steps

variable {F : Type} (wf : WriteFlash F)

/-! ## What one call does -/

/-- `httpd_post_begin` accepts: the uri is the upload's and the connection is not the current. -/
def Accepts (s : Post F) (c : Conn) (uri : List UInt8) : Prop :=
  startsWith uri (bytes "/upload") = true ∧ s.currentConnection ≠ some c

instance (s : Post F) (c : Conn) (uri : List UInt8) : Decidable (Accepts s c uri) :=
  inferInstanceAs (Decidable (_ ∧ _))

def Post.opened (s : Post F) (c : Conn) (n : Int) : Post F :=
  { s with
    upd.fwupdate.state := .octetStart
    upd.fwupdate.contentLength := n
    currentConnection := some c
    validConnection := none }

def Post.closed (s : Post F) : Post F :=
  { s with currentConnection := none, validConnection := none }

/-- The outcomes of a call. -/
inductive Call (wf : WriteFlash F) (s : Post F) : Event → Post F × Answer → Prop
  | off {e : Event} (hj : s.jumped = true) : Call wf s e (s, { err := .abrt })
  | accepted {c : Conn} {uri : List UInt8} {n : Int} (hj : s.jumped = false)
      (ha : Accepts s c uri) :
      Call wf s (.postBegin c uri n) (s.opened c n, { responseUri := some "/loginfail.html" })
  | refused {c : Conn} {uri : List UInt8} {n : Int} (hj : s.jumped = false)
      (ha : ¬ Accepts s c uri) : Call wf s (.postBegin c uri n) (s, { err := .val })
  | fed {c : Conn} {p : Pbuf} {s' : Post F} (hj : s.jumped = false)
      (hc : s.currentConnection = some c) (hupd : s'.upd = (feed wf s.upd p.head).1)
      (hc' : s'.currentConnection = some c) (hj' : s'.jumped = false)
      (hreboot : s'.reboot = true ↔ s.reboot = true ∨ (feed wf s.upd p.head).2 = .done) :
      Call wf s (.receiveData c p) (s', { status := some (feed wf s.upd p.head).2 })
  | unknown {c : Conn} {p : Pbuf} (hj : s.jumped = false) (hc : s.currentConnection ≠ some c) :
      Call wf s (.receiveData c p) (s, { err := .val })
  | jumps {c : Conn} (hj : s.jumped = false) (hr : s.reboot = true) :
      Call wf s (.postFinished c) ({ s with jumped := true }, { jumps := true })
  | closes {c : Conn} {r : Option String} (hj : s.jumped = false) (hr : s.reboot = false)
      (hc : s.currentConnection = some c) :
      Call wf s (.postFinished c) (s.closed, { responseUri := r })
  | ignores {c : Conn} {r : Option String} (hj : s.jumped = false) (hr : s.reboot = false)
      (hc : s.currentConnection ≠ some c) :
      Call wf s (.postFinished c) (s, { responseUri := r })

theorem step_of_running {s : Post F} (hj : s.jumped = false) (e : Event) :
    step wf s e =
      match e with
      | .postBegin c uri n => httpdPostBegin s c uri n
      | .receiveData c p => httpdPostReceiveData wf s c p
      | .postFinished c => httpdPostFinished s c := by
  unfold step
  rw [hj]
  rfl

/-- **Every call has one of these outcomes.** -/
theorem step_call (s : Post F) (e : Event) : Call wf s e (step wf s e) := by
  cases hj : s.jumped with
  | true =>
    have hs : step wf s e = (s, { err := .abrt }) := by
      unfold step
      rw [if_pos hj]
    rw [hs]
    exact .off hj
  | false =>
    cases e with
    | postBegin c uri n =>
      rw [step_of_running wf hj]
      by_cases ha : Accepts s c uri
      · show Call wf s _ (httpdPostBegin s c uri n)
        rw [begin_accepted ha.1 ha.2]
        exact .accepted hj ha
      · have hs : httpdPostBegin s c uri n = (s, { err := .val }) := by
          unfold httpdPostBegin
          split
          · next hu => rw [if_neg fun hc => ha ⟨hu, hc⟩]
          · rfl
        show Call wf s _ (httpdPostBegin s c uri n)
        rw [hs]
        exact .refused hj ha
    | receiveData c p =>
      by_cases hc : s.currentConnection = some c
      · obtain ⟨s', hs, hupd, hc', hj', hreboot⟩ := step_receive wf p hc hj
        rw [hs]
        exact .fed hj hc hupd hc' hj' hreboot
      · rw [step_of_running wf hj]
        show Call wf s _ (httpdPostReceiveData wf s c p)
        rw [httpdPostReceiveData, if_neg hc]
        exact .unknown hj hc
    | postFinished c =>
      rw [step_of_running wf hj]
      show Call wf s _ (httpdPostFinished s c)
      unfold httpdPostFinished
      by_cases hr : s.reboot = true
      · rw [if_pos hr]
        exact .jumps hj hr
      · have hr' : s.reboot = false := Bool.not_eq_true _ ▸ hr
        rw [if_neg hr]
        by_cases hc : s.currentConnection = some c
        · rw [if_pos hc]
          exact .closes hj hr' hc
        · rw [if_neg hc]
          exact .ignores hj hr' hc

/-! ## What the state machine does -/

section Feed

variable {u : Updater F} {q : Segment}

/-- **A pbuf is streamed from its first file byte on, or leaves stage and counter alone.** -/
theorem feed_cases (u : Updater F) (q : Segment) :
    (∃ k fw, k < q.payload.length ∧
        fileStart u.fwupdate q.mem q.payload.length = some (k, fw.fileLength) ∧
        fw.state = .octetStream ∧
        feed wf u q = octetStream wf { u with fwupdate := fw } (q.payload.drop k)) ∨
      ∃ fw ret, feed wf u q = ({ u with fwupdate := fw }, ret) ∧ ret ≠ .done ∧
        (ret = .error → fw.state = .header) ∧
        (fileStart u.fwupdate q.mem q.payload.length = none → fw.state ≠ .octetStream) := by
  rcases fileStart_cases u.fwupdate q.mem q.payload.length with ⟨k, fl, hs, hk⟩ | hnone
  · obtain ⟨fw, hst, rfl, hm⟩ := machine_file wf hs hk
    rw [q.mem_take] at hm
    exact .inl ⟨k, fw, hk, hs, hst, hm⟩
  · exact .inr (machine_no_file wf hnone)

/-- The byte counter does not go back; it stands still exactly when nothing was streamed, and then
the stage is as before and the file is not done. -/
theorem feed_curlen (u : Updater F) (q : Segment) :
    (u.curlen < (feed wf u q).1.curlen) ∨
      (feed wf u q).1.curlen = u.curlen ∧ (feed wf u q).1.stage = u.stage ∧
        (feed wf u q).2 ≠ .done := by
  rcases feed_cases wf u q with ⟨k, fw, hk, -, -, h⟩ | ⟨fw, ret, h, hret, -⟩
  · left
    rw [h, octetStream_curlen, List.length_drop]
    dsimp only
    omega
  · rw [h]
    exact .inr ⟨rfl, rfl, hret⟩

theorem feed_curlen_le (u : Updater F) (q : Segment) :
    u.curlen ≤ (feed wf u q).1.curlen := by
  rcases feed_curlen wf u q with h | ⟨h, -, -⟩ <;> omega

theorem feed_terminal (h : (feed wf u q).2 = .done ∨ (feed wf u q).2 = .error) :
    (feed wf u q).1.fwupdate.state = .header := by
  rcases feed_cases wf u q with ⟨k, fw, hk, -, hst, hf⟩ | ⟨fw, ret, hf, hret, herr⟩
  · rw [hf] at h ⊢
    by_cases hle : fw.fileLength ≤ u.curlen + (q.payload.drop k).length
    · rw [octetStream_done wf (u := { u with fwupdate := fw }) hle]
    · rw [octetStream_inprogress wf (u := { u with fwupdate := fw }) (Int.not_le.mp hle)] at h
      simp at h
  · rw [hf] at h ⊢
    exact herr.1 (h.resolve_left hret)

/-- A pbuf met in `HEADER` that is no complete header changes at most the content length, and that
only if it starts like a header and names a length. -/
theorem feed_header (hs : u.fwupdate.state = .header)
    (h : parseHeader q.mem q.payload.length = none) :
    ∃ n ret, feed wf u q = ({ u with fwupdate.contentLength := n }, ret) ∧ ret ≠ .done ∧
      (isPostHeader q.mem q.payload.length = false → n = u.fwupdate.contentLength) ∧
      (strstr q.mem contentLengthTag = none → n = u.fwupdate.contentLength) := by
  obtain ⟨n, ret, hm, hret, h1, h2⟩ := machine_header_none wf hs h
  refine ⟨n, ret, hm, ?_, fun hp => (h1 hp).1, h2⟩
  rcases hret with rfl | rfl <;> decide

theorem feed_octetStart (hs : u.fwupdate.state = .octetStart)
    (ht : ∀ o, strstr q.mem octetStreamTag = some o →
      o + octetStreamTag.length ≤ q.payload.length) :
    feed wf u q = (u, .none) ∨ feed wf u q = ({ u with fwupdate.state := .header }, .error) ∨
      ∃ e, e ≤ q.payload.length ∧
        (feed wf u q = ({ u with fwupdate := u.fwupdate.armed e }, .inprogress) ∨
          feed wf u q = octetStream wf { u with fwupdate := u.fwupdate.armed e }
            (q.payload.drop e)) := by
  rcases Nat.eq_zero_or_pos q.payload.length with h0 | hl
  · exact .inl (feed_empty wf (List.eq_nil_of_length_eq_zero h0))
  · right
    unfold feed
    cases htag : strstr q.mem octetStreamTag with
    | none => exact .inl (machine_octetStart_none wf hs hl htag)
    | some o =>
      right
      have hle := ht o htag
      refine ⟨o + octetStreamTag.length, hle, ?_⟩
      by_cases hlt : o + octetStreamTag.length < q.payload.length
      · right
        rw [machine_octetStart_some wf hs hl htag rfl hlt, q.mem_take]
      · exact .inl (machine_octetStart_end wf hs hl htag rfl (by omega))

end Feed

/-! ## One POST from power-on -/

/-- The calls of one POST from power-on. -/
def postEvents (c : Conn) (uri : List UInt8) (n : Int) (ps : List Pbuf) : List Event :=
  .postBegin c uri n :: ps.map (Event.receiveData c)

theorem post_run {c : Conn} {uri : List UInt8} {n : Int} {f : F} (ps : List Pbuf)
    (hu : startsWith uri (bytes "/upload")) :
    (final (step wf) (powerOn f) (postEvents c uri n ps)).upd =
        final (feed wf) ((powerOn f).opened c n).upd (ps.map Pbuf.head) ∧
      statuses (outs (step wf) (powerOn f) (postEvents c uri n ps)) =
        outs (feed wf) ((powerOn f).opened c n).upd (ps.map Pbuf.head) ∧
      ((final (step wf) (powerOn f) (postEvents c uri n ps)).reboot = true ↔
        .done ∈ outs (feed wf) ((powerOn f).opened c n).upd (ps.map Pbuf.head)) := by
  have hbegin : step wf (powerOn f) (.postBegin c uri n) =
      ((powerOn f).opened c n, { responseUri := some "/loginfail.html" }) := by
    rw [step_of_running wf rfl]
    exact begin_accepted hu (by simp [powerOn])
  obtain ⟨h1, h2, -, -, h5⟩ :=
    receive_run wf (s := (powerOn f).opened c n) (c := c) ps rfl rfl
  unfold postEvents
  rw [final_cons, outs_cons, hbegin]
  refine ⟨h1, h2, ?_⟩
  rw [h5]
  simp [Post.opened, powerOn]

/-! ## What every block write keeps -/

section Driver

variable {J : F → Prop}

/-- What `write_flash` keeps when it is called with a whole block. -/
def KeptByWrites (wf : WriteFlash F) (J : F → Prop) : Prop :=
  ∀ f dst src, src.length = 1024 → J f → J (wf f dst src 1024).2

variable {wf}

theorem storeByte_kept (hwf : KeptByWrites wf J) {s : Stage F} (x : UInt8) (h : J s.flash) :
    J (storeByte wf s x).flash := by
  by_cases hlt : (s.flashCnt : Nat) + 1 < 1024
  · rwa [(storeByte_lt wf x hlt).2.2.2]
  · rw [(storeByte_full wf x hlt).2.2]
    apply hwf _ _ _ _ h
    have := s.flashCnt.isLt
    simp only [List.length_append, Stage.pend_length, List.length_singleton]
    omega

theorem octetStream_kept (hwf : KeptByWrites wf J) {u : Updater F} (xs : List UInt8)
    (h : J u.stage.flash) : J (octetStream wf u xs).1.stage.flash := by
  have hfold : J (xs.foldl (storeByte wf) u.stage).flash := by
    generalize u.stage = s at h
    induction xs generalizing s with
    | nil => exact h
    | cons x xs ih => exact ih _ (storeByte_kept hwf x h)
  unfold octetStream
  dsimp only
  split
  · dsimp only
    rw [writeRest_eq]
    dsimp only
    split
    · exact hwf _ _ _ Vector.length_toList hfold
    · exact hfold
  · exact hfold

/-- **Driver rule.** What every block write keeps, every call keeps. -/
theorem step_kept (hwf : KeptByWrites wf J) {s : Post F} (e : Event) (h : J s.upd.stage.flash) :
    J (step wf s e).1.upd.stage.flash := by
  have hcall := step_call wf s e
  generalize step wf s e = r at hcall ⊢
  cases hcall with
  | @fed c p s' hj hc hupd hc' hj' hreboot =>
    rw [hupd]
    rcases feed_cases wf s.upd p.head with ⟨k, fw, -, -, -, hf⟩ | ⟨fw, ret, hf, -⟩
    · rw [hf]
      exact octetStream_kept hwf (u := { s.upd with fwupdate := fw }) _ h
    · rw [hf]
      exact h
  | _ => exact h

end Driver

/-! ## Reachable states -/

section Reachable

variable {f : F}

/-- Nothing streamed yet: the block loop is as it was at power-on. -/
structure Untouched (f : F) (s : Post F) : Prop where
  curlen : 0 ≤ s.upd.curlen
  stage : s.upd.curlen = 0 → s.upd.stage = .powerOn f

theorem untouched_step {s : Post F} (e : Event) (h : Untouched f s) :
    Untouched f (step wf s e).1 := by
  have hcall := step_call wf s e
  generalize step wf s e = r at hcall ⊢
  cases hcall with
  | @fed c p s' hj hc hupd hc' hj' hreboot =>
    rcases feed_curlen wf s.upd p.head with hlt | ⟨heq, hstage, -⟩
    · have := h.curlen
      exact ⟨by rw [hupd]; omega, fun h0 => by rw [hupd] at h0; omega⟩
    · refine ⟨by rw [hupd, heq]; exact h.curlen, fun h0 => ?_⟩
      rw [hupd, heq] at h0
      rw [hupd, hstage]
      exact h.stage h0
  | _ => exact ⟨h.curlen, h.stage⟩

/-- **In every reachable state whose byte counter is 0 the block loop is as at power-on.** -/
theorem reachable_untouched (es : List Event) : Untouched f (final (step wf) (powerOn f) es) :=
  final_inv_of_step (fun _ e h => untouched_step wf e h) es ⟨Int.le_refl 0, fun _ => rfl⟩

end Reachable

end AdcUdpStream.Loader
