import AdcUdpStream.Loader.Multipart

/-!
# What one buffer does to the state machine

The `while` loop of `fwupdate_multipart_state_machine` makes at most three passes
(`fwupdateLoop_stop`), one for each state. `fileStart` is where the file bytes
begin in a buffer, given the state it is met in: with it one call is either one
`octetStream` on those bytes (`machine_file`) or leaves the stage and the byte
counter alone and does not answer `DONE` (`machine_no_file`). Two buffers that
are streamed one after the other are streamed as one (`octetStream_append`). The
counters and the answers are the same for every driver (`machine_alike`).
-/

namespace AdcUdpStream.Loader

open CStr

variable {F : Type} (wf : WriteFlash F)

/-! ## The loop -/

/-- How many passes a state can still make after this one. -/
def FwupdateState.rank : FwupdateState → Nat
  | .header => 2
  | .octetStart => 1
  | .octetStream => 0

variable {mem : List UInt8} {buflen : Nat}

theorem fwupdateLoop_pass {n k b : Nat} {r : FwupdateStatus} {u : Updater F} (hk : k < buflen) :
    fwupdateLoop wf mem buflen (n + 1) u ⟨some k, b, r⟩ =
      fwupdateLoop wf mem buflen n (fwupdatePass wf mem buflen u ⟨some k, b, r⟩ k).1
        (fwupdatePass wf mem buflen u ⟨some k, b, r⟩ k).2 := by
  simp only [fwupdateLoop, hk, ↓reduceIte]

@[simp] theorem fwupdateLoop_null {n b : Nat} {r : FwupdateStatus} {u : Updater F} :
    fwupdateLoop wf mem buflen n u ⟨none, b, r⟩ = (u, ⟨none, b, r⟩) := by
  cases n <;> rfl

theorem fwupdateLoop_end {n k b : Nat} {r : FwupdateStatus} {u : Updater F} (hk : ¬ k < buflen) :
    fwupdateLoop wf mem buflen n u ⟨some k, b, r⟩ = (u, ⟨some k, b, r⟩) := by
  cases n <;> simp only [fwupdateLoop, hk, ↓reduceIte]

theorem fwupdatePass_rank (mem : List UInt8) (buflen : Nat) (u : Updater F) (cur : Cursor)
    (k : Nat) :
    (fwupdatePass wf mem buflen u cur k).2.buf = none ∨
      (fwupdatePass wf mem buflen u cur k).1.fwupdate.state.rank < u.fwupdate.state.rank := by
  unfold fwupdatePass
  cases hs : u.fwupdate.state with
  | header =>
    simp only [headerCase]
    split
    · split
      · exact .inl rfl
      · split
        · split
          · exact .inl rfl
          · exact .inr (by simp [FwupdateState.rank])
        · exact .inl rfl
    · exact .inl rfl
  | octetStart =>
    simp only [octetStartCase]
    split
    · exact .inl rfl
    · exact .inr (by simp [FwupdateState.rank])
  | octetStream => exact .inl rfl

/-- **The `while` loop ends**: after the passes its state allows, more fuel changes nothing. -/
theorem fwupdateLoop_stop {r : Nat} (n : Nat) {u : Updater F} {cur : Cursor}
    (hr : u.fwupdate.state.rank < r) :
    fwupdateLoop wf mem buflen (r + n) u cur = fwupdateLoop wf mem buflen r u cur := by
  induction r generalizing u cur with
  | zero => omega
  | succ r ih =>
    obtain ⟨_ | k, b, ret⟩ := cur
    · simp
    · by_cases hk : k < buflen
      · rw [show r + 1 + n = r + n + 1 by omega, fwupdateLoop_pass wf hk, fwupdateLoop_pass wf hk]
        have hrank := fwupdatePass_rank wf mem buflen u ⟨some k, b, ret⟩ k
        generalize fwupdatePass wf mem buflen u ⟨some k, b, ret⟩ k = next at hrank ⊢
        obtain ⟨u', buf', b', ret'⟩ := next
        rcases hrank with rfl | h
        · simp
        · exact ih (by omega)
      · rw [fwupdateLoop_end wf hk, fwupdateLoop_end wf hk]

theorem machine_fuel (n : Nat) (u : Updater F) :
    fwupdateMultipartStateMachine wf u mem buflen =
      ((fwupdateLoop wf mem buflen (3 + n) u Cursor.start).1,
        (fwupdateLoop wf mem buflen (3 + n) u Cursor.start).2.ret) := by
  rw [fwupdateLoop_stop wf n (by cases u.fwupdate.state <;> simp [FwupdateState.rank])]
  rfl

/-! ## Streaming -/

/-- **Buffers join.** If the first buffer does not end the file, streaming two buffers is
streaming their concatenation. -/
theorem octetStream_append {u : Updater F} {xs : List UInt8} (ys : List UInt8)
    (h : u.curlen + xs.length < u.fwupdate.fileLength) :
    octetStream wf (octetStream wf u xs).1 ys = octetStream wf u (xs ++ ys) := by
  have hx : ¬ u.curlen + xs.length ≥ u.fwupdate.fileLength := by omega
  simp only [octetStream, hx, ↓reduceIte, List.foldl_append, List.length_append, Int.natCast_add,
    Int.add_assoc]

theorem octetStream_inprogress {u : Updater F} {xs : List UInt8}
    (h : u.curlen + xs.length < u.fwupdate.fileLength) :
    octetStream wf u xs =
      ({ u with curlen := u.curlen + xs.length, stage := xs.foldl (storeByte wf) u.stage },
        .inprogress) := by
  have hx : ¬ u.curlen + xs.length ≥ u.fwupdate.fileLength := by omega
  simp only [octetStream, hx, ↓reduceIte]

theorem octetStream_done {u : Updater F} {xs : List UInt8}
    (h : u.fwupdate.fileLength ≤ u.curlen + xs.length) :
    octetStream wf u xs =
      ({ u with
          curlen := u.curlen + xs.length
          stage := writeRest wf (xs.foldl (storeByte wf) u.stage)
          fwupdate.state := .header }, .done) := by
  have hx : u.curlen + xs.length ≥ u.fwupdate.fileLength := h
  simp only [octetStream, hx, ↓reduceIte]

@[simp] theorem octetStream_curlen (u : Updater F) (xs : List UInt8) :
    (octetStream wf u xs).1.curlen = u.curlen + xs.length := by
  unfold octetStream
  dsimp only
  split <;> rfl

/-! ## One call, by state -/

theorem machine_empty (u : Updater F) :
    fwupdateMultipartStateMachine wf u mem 0 = (u, .none) := rfl

theorem machine_octetStream {u : Updater F} (hs : u.fwupdate.state = .octetStream)
    (hl : 0 < buflen) :
    fwupdateMultipartStateMachine wf u mem buflen = octetStream wf u (mem.take buflen) := by
  have hp : fwupdatePass wf mem buflen u ⟨some 0, 0, .none⟩ 0 =
      ((octetStream wf u (mem.take buflen)).1,
        ⟨none, 0, (octetStream wf u (mem.take buflen)).2⟩) := by
    simp only [fwupdatePass, hs, List.drop_zero]
  rw [fwupdateMultipartStateMachine, Cursor.start, fwupdateLoop_pass wf hl, hp, fwupdateLoop_null]

/-- The statics when the tag has been found with `m` bytes of preamble before the file. -/
def Fwupdate.armed (fw : Fwupdate) (m : Int) : Fwupdate :=
  { fw with
    state := .octetStream
    fileLength := fw.contentLength - m
    accumLength := 0
    accumBufLen := 0 }

section OctetStart

variable {n k b : Nat} {r : FwupdateStatus} {u : Updater F}

theorem octetStart_loop_none (hs : u.fwupdate.state = .octetStart) (hk : k < buflen)
    (ht : strstr (mem.drop k) octetStreamTag = none) :
    fwupdateLoop wf mem buflen (n + 1) u ⟨some k, b, r⟩ =
      ({ u with fwupdate.state := .header }, ⟨none, b, .error⟩) := by
  have hp : fwupdatePass wf mem buflen u ⟨some k, b, r⟩ k =
      ({ u with fwupdate.state := .header }, ⟨none, b, .error⟩) := by
    simp only [fwupdatePass, hs, octetStartCase, ht]
  rw [fwupdateLoop_pass wf hk, hp, fwupdateLoop_null]

variable {o e : Nat}

theorem octetStart_pass_some (hs : u.fwupdate.state = .octetStart)
    (ht : strstr (mem.drop k) octetStreamTag = some o) (he : e = k + o + octetStreamTag.length) :
    fwupdatePass wf mem buflen u ⟨some k, b, r⟩ k =
      ({ u with fwupdate := u.fwupdate.armed (e - b) }, ⟨some e, b, .inprogress⟩) := by
  simp only [fwupdatePass, hs, octetStartCase, ht, Fwupdate.armed, he]

theorem octetStart_loop_end (hs : u.fwupdate.state = .octetStart) (hk : k < buflen)
    (ht : strstr (mem.drop k) octetStreamTag = some o) (he : e = k + o + octetStreamTag.length)
    (hle : buflen ≤ e) :
    fwupdateLoop wf mem buflen (n + 1) u ⟨some k, b, r⟩ =
      ({ u with fwupdate := u.fwupdate.armed (e - b) }, ⟨some e, b, .inprogress⟩) := by
  rw [fwupdateLoop_pass wf hk, octetStart_pass_some wf hs ht he, fwupdateLoop_end wf (by omega)]

theorem octetStart_loop_some (hs : u.fwupdate.state = .octetStart) (hk : k < buflen)
    (ht : strstr (mem.drop k) octetStreamTag = some o) (he : e = k + o + octetStreamTag.length)
    (hlt : e < buflen) :
    fwupdateLoop wf mem buflen (n + 2) u ⟨some k, b, r⟩ =
      ((octetStream wf { u with fwupdate := u.fwupdate.armed (e - b) }
          ((mem.take buflen).drop e)).1,
        ⟨none, b,
          (octetStream wf { u with fwupdate := u.fwupdate.armed (e - b) }
            ((mem.take buflen).drop e)).2⟩) := by
  rw [fwupdateLoop_pass wf hk, octetStart_pass_some wf hs ht he, fwupdateLoop_pass wf hlt]
  exact fwupdateLoop_null wf

end OctetStart

theorem machine_eq {u u' : Updater F} {cur : Cursor}
    (h : fwupdateLoop wf mem buflen 3 u ⟨some 0, 0, .none⟩ = (u', cur)) :
    fwupdateMultipartStateMachine wf u mem buflen = (u', cur.ret) := by
  simp only [fwupdateMultipartStateMachine, Cursor.start, h]

theorem machine_octetStart_none {u : Updater F} (hs : u.fwupdate.state = .octetStart)
    (hl : 0 < buflen) (ht : strstr mem octetStreamTag = none) :
    fwupdateMultipartStateMachine wf u mem buflen =
      ({ u with fwupdate.state := .header }, .error) :=
  machine_eq wf (octetStart_loop_none wf hs hl (by rwa [List.drop_zero]))

theorem machine_octetStart_end {u : Updater F} {o e : Nat} (hs : u.fwupdate.state = .octetStart)
    (hl : 0 < buflen) (ht : strstr mem octetStreamTag = some o)
    (he : e = o + octetStreamTag.length) (hle : buflen ≤ e) :
    fwupdateMultipartStateMachine wf u mem buflen =
      ({ u with fwupdate := u.fwupdate.armed e }, .inprogress) := by
  have h := octetStart_loop_end wf (n := 2) (b := 0) (r := .none) (e := e) hs hl
    (by rwa [List.drop_zero]) (by omega) hle
  rw [machine_eq wf h]
  simp

theorem machine_octetStart_some {u : Updater F} {o e : Nat} (hs : u.fwupdate.state = .octetStart)
    (hl : 0 < buflen) (ht : strstr mem octetStreamTag = some o)
    (he : e = o + octetStreamTag.length) (hlt : e < buflen) :
    fwupdateMultipartStateMachine wf u mem buflen =
      octetStream wf { u with fwupdate := u.fwupdate.armed e } ((mem.take buflen).drop e) := by
  have h := octetStart_loop_some wf (n := 1) (b := 0) (r := .none) (e := e) hs hl
    (by rwa [List.drop_zero]) (by omega) hlt
  rw [machine_eq wf h]
  simp

/-! ## The header state -/

def isPostHeader (mem : List UInt8) (buflen : Nat) : Bool :=
  decide (12 ≤ buflen) && startsWith mem (bytes "POST /upload")

/-- A complete header: its content length, and the offset of the body behind it. -/
def parseHeader (mem : List UInt8) (buflen : Nat) : Option (Int × Nat) :=
  if isPostHeader mem buflen then
    (strstr mem contentLengthTag).bind fun o =>
      if 0 < atoi (mem.drop (o + contentLengthTag.length)) then
        (strstr (mem.drop (o + contentLengthTag.length)) emptyLineTag).map fun o' =>
          (atoi (mem.drop (o + contentLengthTag.length)),
            o + contentLengthTag.length + o' + emptyLineTag.length)
      else none
  else none

/-- **A complete header arms `OCTET_START`**, with the body as the start of the buffer. -/
theorem headerCase_some {fw : Fwupdate} {n : Int} {k : Nat}
    (h : parseHeader mem buflen = some (n, k)) :
    headerCase mem buflen fw ⟨some 0, 0, .none⟩ 0 =
      ({ fw with contentLength := n, state := .octetStart }, ⟨some k, k, .inprogress⟩) := by
  unfold parseHeader at h
  split at h
  · next hp =>
    simp only [isPostHeader, Bool.and_eq_true, decide_eq_true_eq] at hp
    obtain ⟨o, ho, h⟩ := Option.bind_eq_some_iff.mp h
    split at h
    · next hpos =>
      obtain ⟨o', ho', hk⟩ := Option.map_eq_some_iff.mp h
      obtain ⟨rfl, rfl⟩ := Prod.mk.injEq .. ▸ hk
      simp only [headerCase, List.drop_zero, ge_iff_le, hp, and_self, ↓reduceIte, ho, Nat.zero_add,
        gt_iff_lt, hpos, ho']
    · cases h
  · cases h

/-- A buffer that is no complete header leaves the state; only the content length can change, and
only if the buffer starts like a header and names one. -/
theorem headerCase_none (fw : Fwupdate) (h : parseHeader mem buflen = none) :
    ∃ n ret, headerCase mem buflen fw ⟨some 0, 0, .none⟩ 0 =
        ({ fw with contentLength := n }, ⟨none, 0, ret⟩) ∧
      (ret = .none ∨ ret = .error) ∧
      (isPostHeader mem buflen = false → n = fw.contentLength ∧ ret = .none) ∧
      (strstr mem contentLengthTag = none → n = fw.contentLength) := by
  unfold parseHeader at h
  by_cases hp : isPostHeader mem buflen = true
  · rw [if_pos hp] at h
    have hp' := hp
    simp only [isPostHeader, Bool.and_eq_true, decide_eq_true_eq] at hp'
    cases ho : strstr mem contentLengthTag with
    | none =>
      refine ⟨fw.contentLength, .error, ?_, .inr rfl, by simp [hp], fun _ => rfl⟩
      simp only [headerCase, List.drop_zero, ge_iff_le, hp', and_self, ↓reduceIte, ho]
    | some o =>
      refine ⟨atoi (mem.drop (o + contentLengthTag.length)), .error, ?_, .inr rfl, by simp [hp],
        by simp⟩
      rw [ho, Option.bind_some] at h
      simp only [headerCase, List.drop_zero, ge_iff_le, hp', and_self, ↓reduceIte, ho, Nat.zero_add,
        gt_iff_lt]
      split
      · next hpos =>
        rw [if_pos hpos, Option.map_eq_none_iff] at h
        rw [h]
      · rfl
  · refine ⟨fw.contentLength, .none, ?_, .inl rfl, fun _ => ⟨rfl, rfl⟩, fun _ => rfl⟩
    have hp' : ¬ (buflen ≥ 12 ∧ startsWith (mem.drop 0) (bytes "POST /upload") = true) := by
      simpa [isPostHeader] using hp
    rw [headerCase, if_neg hp']

theorem parseHeader_empty : parseHeader mem 0 = none := by
  simp [parseHeader, isPostHeader]

theorem machine_header_none {u : Updater F} (hs : u.fwupdate.state = .header)
    (h : parseHeader mem buflen = none) :
    ∃ n ret, fwupdateMultipartStateMachine wf u mem buflen =
        ({ u with fwupdate.contentLength := n }, ret) ∧
      (ret = .none ∨ ret = .error) ∧
      (isPostHeader mem buflen = false → n = u.fwupdate.contentLength ∧ ret = .none) ∧
      (strstr mem contentLengthTag = none → n = u.fwupdate.contentLength) := by
  rcases Nat.eq_zero_or_pos buflen with rfl | hl
  · exact ⟨u.fwupdate.contentLength, .none, rfl, .inl rfl, fun _ => ⟨rfl, rfl⟩, fun _ => rfl⟩
  · obtain ⟨n, ret, hc, hrest⟩ := headerCase_none u.fwupdate h
    refine ⟨n, ret, ?_, hrest⟩
    have hp : fwupdatePass wf mem buflen u ⟨some 0, 0, .none⟩ 0 =
        ({ u with fwupdate.contentLength := n }, ⟨none, 0, ret⟩) := by
      simp only [fwupdatePass, hs, hc]
    have hloop : fwupdateLoop wf mem buflen 3 u ⟨some 0, 0, .none⟩ =
        ({ u with fwupdate.contentLength := n }, ⟨none, 0, ret⟩) := by
      rw [fwupdateLoop_pass wf hl, hp, fwupdateLoop_null]
    exact machine_eq wf hloop

theorem header_loop {u : Updater F} {n : Int} {k : Nat} (hs : u.fwupdate.state = .header)
    (h : parseHeader mem buflen = some (n, k)) :
    fwupdateLoop wf mem buflen 3 u ⟨some 0, 0, .none⟩ =
      fwupdateLoop wf mem buflen 2
        { u with fwupdate.contentLength := n, fwupdate.state := .octetStart }
        ⟨some k, k, .inprogress⟩ := by
  have hl : 0 < buflen := by
    rcases Nat.eq_zero_or_pos buflen with rfl | hl
    · rw [parseHeader_empty] at h
      cases h
    · exact hl
  have hp : fwupdatePass wf mem buflen u ⟨some 0, 0, .none⟩ 0 =
      ({ u with fwupdate.contentLength := n, fwupdate.state := .octetStart },
        ⟨some k, k, .inprogress⟩) := by
    simp only [fwupdatePass, hs, headerCase_some h]
  rw [fwupdateLoop_pass wf hl, hp]

/-! ## Where the file begins -/

/-- The offset of the first file byte of a buffer and the length the file will be taken to have,
when the buffer leads to `OCTET_STREAM`. -/
def fileStart (fw : Fwupdate) (mem : List UInt8) (buflen : Nat) : Option (Nat × Int) :=
  match fw.state with
  | .octetStream => some (0, fw.fileLength)
  | .octetStart => (strstr mem octetStreamTag).map fun o =>
      (o + octetStreamTag.length, fw.contentLength - (o + octetStreamTag.length : Nat))
  | .header => (parseHeader mem buflen).bind fun r =>
      if r.2 < buflen then
        (strstr (mem.drop r.2) octetStreamTag).map fun o =>
          (r.2 + o + octetStreamTag.length, r.1 - (o + octetStreamTag.length : Nat))
      else none

theorem fileStart_cases (fw : Fwupdate) (mem : List UInt8) (buflen : Nat) :
    (∃ k fl, fileStart fw mem buflen = some (k, fl) ∧ k < buflen) ∨
      ∀ k fl, fileStart fw mem buflen = some (k, fl) → buflen ≤ k := by
  by_cases hf : ∃ k fl, fileStart fw mem buflen = some (k, fl) ∧ k < buflen
  · exact .inl hf
  · refine .inr fun k fl hs => ?_
    by_contra hlt
    exact hf ⟨k, fl, hs, Nat.lt_of_not_le hlt⟩

def EndsFile (u : Updater F) (mem : List UInt8) (buflen : Nat) : Prop :=
  ∃ k fl, fileStart u.fwupdate mem buflen = some (k, fl) ∧ k < buflen ∧
    fl ≤ u.curlen + (buflen - k : Nat)

/-- **A buffer with file bytes** is streamed from there on. -/
theorem machine_file {u : Updater F} {k : Nat} {fl : Int}
    (h : fileStart u.fwupdate mem buflen = some (k, fl)) (hk : k < buflen) :
    ∃ fw, fw.state = .octetStream ∧ fw.fileLength = fl ∧
      fwupdateMultipartStateMachine wf u mem buflen =
        octetStream wf { u with fwupdate := fw } ((mem.take buflen).drop k) := by
  unfold fileStart at h
  split at h
  · next hs =>
    simp only [Option.some.injEq, Prod.mk.injEq] at h
    obtain ⟨rfl, rfl⟩ := h
    exact ⟨u.fwupdate, hs, rfl, machine_octetStream wf hs hk⟩
  · next hs =>
    obtain ⟨o, ho, hko⟩ := Option.map_eq_some_iff.mp h
    obtain ⟨rfl, rfl⟩ := Prod.mk.injEq .. ▸ hko
    exact ⟨u.fwupdate.armed (o + octetStreamTag.length : Nat), rfl, rfl,
      machine_octetStart_some wf hs (by omega) ho rfl hk⟩
  · next hs =>
    obtain ⟨⟨n, b⟩, hh, h⟩ := Option.bind_eq_some_iff.mp h
    split at h
    · next hb =>
      obtain ⟨o, ho, hko⟩ := Option.map_eq_some_iff.mp h
      obtain ⟨rfl, rfl⟩ := Prod.mk.injEq .. ▸ hko
      refine ⟨{ u.fwupdate with contentLength := n, state := .octetStart }.armed
        (o + octetStreamTag.length : Nat), rfl, rfl, ?_⟩
      have hloop := header_loop wf hs hh
      rw [octetStart_loop_some wf (n := 0) rfl hb ho rfl hk] at hloop
      rw [machine_eq wf hloop]
      have he : ((b + o + octetStreamTag.length : Nat) : Int) - b =
          (o + octetStreamTag.length : Nat) := by
        omega
      rw [he]
    · cases h

/-- **A buffer without file bytes** leaves the stage and the byte counter and does not end; an
error leaves the machine in `HEADER`, and only a tag opens the stream. -/
theorem machine_no_file {u : Updater F}
    (h : ∀ k fl, fileStart u.fwupdate mem buflen = some (k, fl) → buflen ≤ k) :
    ∃ fw ret, fwupdateMultipartStateMachine wf u mem buflen = ({ u with fwupdate := fw }, ret) ∧
      ret ≠ .done ∧ (ret = .error → fw.state = .header) ∧
      (fileStart u.fwupdate mem buflen = none → fw.state ≠ .octetStream) := by
  rcases Nat.eq_zero_or_pos buflen with rfl | hl
  · refine ⟨u.fwupdate, .none, rfl, by decide, by simp, fun hnone hs => ?_⟩
    simp only [fileStart, hs] at hnone
    cases hnone
  cases hs : u.fwupdate.state with
  | octetStream =>
    have := h 0 u.fwupdate.fileLength (by simp only [fileStart, hs])
    omega
  | octetStart =>
    cases ht : strstr mem octetStreamTag with
    | none =>
      exact ⟨_, .error, machine_octetStart_none wf hs hl ht, by decide, fun _ => rfl, by simp⟩
    | some o =>
      have hsome := show fileStart u.fwupdate mem buflen = some _ by
        simp only [fileStart, hs, ht, Option.map_some]; rfl
      refine ⟨_, .inprogress, machine_octetStart_end wf hs hl ht rfl (h _ _ hsome), by decide,
        by simp, fun hnone => ?_⟩
      rw [hsome] at hnone
      cases hnone
  | header =>
    cases hh : parseHeader mem buflen with
    | none =>
      obtain ⟨n, ret, hm, hret, -⟩ := machine_header_none wf hs hh
      refine ⟨_, ret, hm, ?_, fun _ => hs, fun _ hst => ?_⟩
      · rcases hret with rfl | rfl <;> decide
      · rw [show u.fwupdate.state = .octetStream from hst] at hs
        cases hs
    | some r =>
      obtain ⟨n, b⟩ := r
      have hloop := header_loop wf hs hh
      by_cases hb : b < buflen
      · cases ht : strstr (mem.drop b) octetStreamTag with
        | none =>
          rw [octetStart_loop_none wf (n := 1) rfl hb ht] at hloop
          exact ⟨_, .error, machine_eq wf hloop, by decide, fun _ => rfl, by simp⟩
        | some o =>
          have hsome := show fileStart u.fwupdate mem buflen = some _ by
            simp only [fileStart, hs, hh, Option.bind_some, hb, ↓reduceIte, ht, Option.map_some]
            rfl
          rw [octetStart_loop_end wf (n := 1) rfl hb ht rfl (h _ _ hsome)] at hloop
          refine ⟨_, .inprogress, machine_eq wf hloop, by decide, by simp, fun hnone => ?_⟩
          rw [hsome] at hnone
          cases hnone
      · rw [fwupdateLoop_end wf hb] at hloop
        exact ⟨_, .inprogress, machine_eq wf hloop, by decide, by simp, by simp⟩

/-- **`DONE` is returned on the last file byte and only there.** -/
theorem machine_done_iff {u : Updater F} (hmem : buflen ≤ mem.length) :
    (fwupdateMultipartStateMachine wf u mem buflen).2 = .done ↔ EndsFile u mem buflen := by
  rcases fileStart_cases u.fwupdate mem buflen with ⟨k, fl, hs, hk⟩ | hnone
  · obtain ⟨fw, -, rfl, hm⟩ := machine_file wf hs hk
    have hlen : ((mem.take buflen).drop k).length = buflen - k := by
      rw [List.length_drop, List.length_take_of_le hmem]
    rw [hm]
    constructor
    · intro hd
      refine ⟨k, fw.fileLength, hs, hk, ?_⟩
      by_contra hlt
      rw [octetStream_inprogress wf (by rw [hlen]; exact Int.not_le.mp hlt)] at hd
      cases hd
    · rintro ⟨k', fl', hs', -, hle⟩
      rw [hs, Option.some.injEq, Prod.mk.injEq] at hs'
      obtain ⟨rfl, rfl⟩ := hs'
      rw [octetStream_done wf (by rw [hlen]; exact hle)]
  · obtain ⟨fw, ret, hm, hret, -⟩ := machine_no_file wf hnone
    rw [hm]
    constructor
    · exact fun hd => absurd hd hret
    · rintro ⟨k, fl, hs, hk, -⟩
      exact absurd hk (Nat.not_lt.mpr (hnone k fl hs))

/-! ## Two drivers -/

section TwoDrivers

variable {G : Type} (wg : WriteFlash G)

/-- The same but for the block loop. -/
structure Alike (u : Updater F) (v : Updater G) : Prop where
  fwupdate : u.fwupdate = v.fwupdate
  curlen : u.curlen = v.curlen

variable {u : Updater F} {v : Updater G}

theorem octetStream_alike (h : Alike u v) (xs : List UInt8) :
    Alike (octetStream wf u xs).1 (octetStream wg v xs).1 ∧
      (octetStream wf u xs).2 = (octetStream wg v xs).2 := by
  obtain ⟨hfw, hcur⟩ := h
  by_cases hle : u.fwupdate.fileLength ≤ u.curlen + xs.length
  · rw [octetStream_done wf hle, octetStream_done wg (by rwa [← hfw, ← hcur])]
    exact ⟨⟨by simp only [hfw], by simp only [hcur]⟩, rfl⟩
  · have hlt := Int.not_le.mp hle
    rw [octetStream_inprogress wf hlt, octetStream_inprogress wg (by rwa [← hfw, ← hcur])]
    exact ⟨⟨hfw, by simp only [hcur]⟩, rfl⟩

theorem fwupdatePass_alike (h : Alike u v) (cur : Cursor) (k : Nat) :
    Alike (fwupdatePass wf mem buflen u cur k).1 (fwupdatePass wg mem buflen v cur k).1 ∧
      (fwupdatePass wf mem buflen u cur k).2 = (fwupdatePass wg mem buflen v cur k).2 := by
  unfold fwupdatePass
  rw [← h.fwupdate]
  cases u.fwupdate.state with
  | header => exact ⟨⟨rfl, h.curlen⟩, rfl⟩
  | octetStart => exact ⟨⟨rfl, h.curlen⟩, rfl⟩
  | octetStream =>
    obtain ⟨hnext, hret⟩ := octetStream_alike wf wg h ((mem.take buflen).drop k)
    exact ⟨hnext, congrArg (Cursor.mk none cur.bufStart) hret⟩

theorem fwupdateLoop_alike (n : Nat) (h : Alike u v) (cur : Cursor) :
    Alike (fwupdateLoop wf mem buflen n u cur).1 (fwupdateLoop wg mem buflen n v cur).1 ∧
      (fwupdateLoop wf mem buflen n u cur).2 = (fwupdateLoop wg mem buflen n v cur).2 := by
  induction n generalizing u v cur with
  | zero => exact ⟨h, rfl⟩
  | succ n ih =>
    obtain ⟨_ | k, b, r⟩ := cur
    · exact ⟨h, rfl⟩
    · by_cases hk : k < buflen
      · obtain ⟨hnext, hcur⟩ := fwupdatePass_alike wf wg h ⟨some k, b, r⟩ k
        rw [fwupdateLoop_pass wf hk, fwupdateLoop_pass wg hk, hcur]
        exact ih hnext _
      · rw [fwupdateLoop_end wf hk, fwupdateLoop_end wg hk]
        exact ⟨h, rfl⟩

/-- **The counters and the answers do not depend on the driver.** -/
theorem machine_alike (h : Alike u v) :
    Alike (fwupdateMultipartStateMachine wf u mem buflen).1
        (fwupdateMultipartStateMachine wg v mem buflen).1 ∧
      (fwupdateMultipartStateMachine wf u mem buflen).2 =
        (fwupdateMultipartStateMachine wg v mem buflen).2 := by
  obtain ⟨hnext, hcur⟩ := fwupdateLoop_alike wf wg 3 h Cursor.start
  exact ⟨hnext, congrArg Cursor.ret hcur⟩

end TwoDrivers

end AdcUdpStream.Loader
