import AdcUdpStream.Loader.Machine

/-!
# Memory behind the buffer

The searches of the state machine do not stop at the end of the pbuf. `ParsesInside`
says of a buffer that each search made and the number read end inside it. Then what
follows the buffer in memory plays no part (`machine_inside`), and otherwise two
continuations are told apart by the status or the content length: one call depends
on the received bytes alone exactly for these buffers
(`parses_received_bytes_iff`).
-/

namespace AdcUdpStream.Loader

open CStr

/-! ## What is compared -/

/-- A driver that keeps the calls made beside its own state, newest first. -/
def recording {F : Type} (wf : WriteFlash F) : WriteFlash (F × List (Nat × List UInt8 × Nat)) :=
  fun g dst src n => ((wf g.1 dst src n).1, (wf g.1 dst src n).2, (dst, src, n) :: g.2)

/-- Two calls return the same status, leave the same state and counters, and have made the same
`write_flash` calls. -/
structure SameCall {F : Type}
    (r r' : Updater (F × List (Nat × List UInt8 × Nat)) × FwupdateStatus) : Prop where
  status : r.2 = r'.2
  fwupdate : r.1.fwupdate = r'.1.fwupdate
  curlen : r.1.curlen = r'.1.curlen
  flashCnt : r.1.stage.flashCnt = r'.1.stage.flashCnt
  flashPos : r.1.stage.flashPos = r'.1.stage.flashPos
  calls : r.1.stage.flash.2 = r'.1.stage.flash.2

/-- In `OCTET_START`: there is nothing to search, or the search ends inside. -/
def BodyInside (body : List UInt8) : Prop := body = [] ∨ Settled octetStreamTag body

/-- In `HEADER`, for a buffer that starts like a POST header: the searches and the content length
end inside, and so does what follows the empty line. -/
def HeaderInside (b : List UInt8) : Prop :=
  Settled contentLengthTag b ∧ ∀ o ∈ strstr b contentLengthTag,
    NumberEnds (b.drop (o + contentLengthTag.length)) ∧
      (0 < atoi (b.drop (o + contentLengthTag.length)) →
        Settled emptyLineTag (b.drop (o + contentLengthTag.length)) ∧
          ∀ o' ∈ strstr (b.drop (o + contentLengthTag.length)) emptyLineTag,
            BodyInside (b.drop (o + contentLengthTag.length + o' + emptyLineTag.length)))

/-- All that one call looks at lies in the buffer. -/
def ParsesInside (fw : Fwupdate) (b : List UInt8) : Prop :=
  match fw.state with
  | .header => isPostHeader b b.length = true → HeaderInside b
  | .octetStart => BodyInside b
  | .octetStream => True

instance (body : List UInt8) : Decidable (BodyInside body) := inferInstanceAs (Decidable (_ ∨ _))

instance (b : List UInt8) : Decidable (HeaderInside b) := inferInstanceAs (Decidable (_ ∧ _))

instance (fw : Fwupdate) (b : List UInt8) : Decidable (ParsesInside fw b) :=
  match h : fw.state with
  | .header => decidable_of_iff (isPostHeader b b.length = true → HeaderInside b)
      (by rw [ParsesInside, h])
  | .octetStart => decidable_of_iff (BodyInside b) (by rw [ParsesInside, h])
  | .octetStream => isTrue (by rw [ParsesInside, h]; trivial)

/-! ## Searches that end inside -/

variable {F : Type} (wf : WriteFlash F) {b : List UInt8} {u : Updater F} {k : Nat}

theorem isPostHeader_append (b more : List UInt8) :
    isPostHeader (b ++ more) b.length = isPostHeader b b.length := by
  unfold isPostHeader startsWith
  by_cases hl : 12 ≤ b.length
  · rw [Bool.eq_iff_iff, Bool.and_eq_true, Bool.and_eq_true, List.isPrefixOf_iff_prefix,
      List.isPrefixOf_iff_prefix]
    have hprefix : bytes "POST /upload" <+: (b ++ more).drop 0 ↔
        bytes "POST /upload" <+: b.drop 0 := drop_isPrefix_append hl
    exact and_congr_right fun _ => hprefix
  · simp [hl]

variable (more : List UInt8)

theorem loop_inside_octetStream (n : Nat) {cur : Cursor}
    (h : cur.buf = none ∨ u.fwupdate.state = .octetStream) :
    fwupdateLoop wf (b ++ more) b.length n u cur = fwupdateLoop wf b b.length n u cur := by
  obtain ⟨_ | k, c, r⟩ := cur
  · rw [fwupdateLoop_null, fwupdateLoop_null]
  · have hs : u.fwupdate.state = .octetStream := h.resolve_left (by simp)
    have hp : fwupdatePass wf (b ++ more) b.length u ⟨some k, c, r⟩ k =
        fwupdatePass wf b b.length u ⟨some k, c, r⟩ k := by
      simp only [fwupdatePass, hs, List.take_left, List.take_length]
    have hnull : (fwupdatePass wf b b.length u ⟨some k, c, r⟩ k).2.buf = none := by
      simp only [fwupdatePass, hs]
    by_cases hk : k < b.length
    · cases n with
      | zero => rfl
      | succ n =>
        rw [fwupdateLoop_pass wf hk, fwupdateLoop_pass wf hk, hp]
        generalize fwupdatePass wf b b.length u ⟨some k, c, r⟩ k = next at hnull ⊢
        obtain ⟨u', _ | k', c', r'⟩ := next
        · rw [fwupdateLoop_null, fwupdateLoop_null]
        · cases hnull
    · rw [fwupdateLoop_end wf hk, fwupdateLoop_end wf hk]

theorem loop_inside_octetStart (n c : Nat) (r : FwupdateStatus)
    (hs : u.fwupdate.state = .octetStart) (h : BodyInside (b.drop k)) :
    fwupdateLoop wf (b ++ more) b.length n u ⟨some k, c, r⟩ =
      fwupdateLoop wf b b.length n u ⟨some k, c, r⟩ := by
  by_cases hk : k < b.length
  · cases n with
    | zero => rfl
    | succ n =>
      have hne : b.drop k ≠ [] := by simp [hk]
      have htag : strstr ((b ++ more).drop k) octetStreamTag =
          strstr (b.drop k) octetStreamTag := by
        rw [List.drop_append_of_le_length (by omega), strstr_settled (h.resolve_left hne)]
      have hp : fwupdatePass wf (b ++ more) b.length u ⟨some k, c, r⟩ k =
          fwupdatePass wf b b.length u ⟨some k, c, r⟩ k := by
        simp only [fwupdatePass, hs, octetStartCase, htag]
      rw [fwupdateLoop_pass wf hk, fwupdateLoop_pass wf hk, hp]
      apply loop_inside_octetStream
      simp only [fwupdatePass, hs, octetStartCase]
      split
      · exact .inl rfl
      · exact .inr rfl
  · rw [fwupdateLoop_end wf hk, fwupdateLoop_end wf hk]

theorem headerCase_inside (fw : Fwupdate) (h : isPostHeader b b.length = true → HeaderInside b) :
    headerCase (b ++ more) b.length fw .start 0 = headerCase b b.length fw .start 0 ∧
      ((headerCase b b.length fw .start 0).2.buf = none ∨
        ∃ fw' k c r, headerCase b b.length fw .start 0 = (fw', ⟨some k, c, r⟩) ∧
          fw'.state = .octetStart ∧ BodyInside (b.drop k)) := by
  have hpost := isPostHeader_append b more
  unfold headerCase
  simp only [List.drop_zero, Nat.zero_add]
  by_cases hp : isPostHeader b b.length = true
  · obtain ⟨htag, hnum⟩ := h hp
    rw [hp] at hpost
    simp only [isPostHeader, Bool.and_eq_true, decide_eq_true_eq] at hp hpost
    rw [if_pos hp, if_pos hpost, strstr_settled htag]
    cases ho : strstr b contentLengthTag with
    | none => exact ⟨rfl, .inl rfl⟩
    | some o =>
      obtain ⟨hends, hbody⟩ := hnum o ho
      have hle := strstr_length ho
      dsimp only
      rw [List.drop_append_of_le_length hle, atoi_append hends]
      by_cases hpos : 0 < atoi (b.drop (o + contentLengthTag.length))
      · obtain ⟨hempty, hrest⟩ := hbody hpos
        rw [if_pos hpos, if_pos hpos, strstr_settled hempty]
        cases ho' : strstr (b.drop (o + contentLengthTag.length)) emptyLineTag with
        | none => exact ⟨rfl, .inl rfl⟩
        | some o' => exact ⟨rfl, .inr ⟨_, _, _, _, rfl, rfl, hrest o' ho'⟩⟩
      · rw [if_neg hpos, if_neg hpos]
        exact ⟨rfl, .inl rfl⟩
  · have hp' := hp
    rw [← hpost] at hp'
    simp only [isPostHeader, Bool.and_eq_true, decide_eq_true_eq] at hp hp'
    rw [if_neg hp, if_neg hp']
    exact ⟨rfl, .inl rfl⟩

/-- **A buffer that is parsed inside does not see the memory behind it.** -/
theorem machine_inside (u : Updater F) (h : ParsesInside u.fwupdate b) :
    fwupdateMultipartStateMachine wf u (b ++ more) b.length =
      fwupdateMultipartStateMachine wf u b b.length := by
  have hloop : fwupdateLoop wf (b ++ more) b.length 3 u .start =
      fwupdateLoop wf b b.length 3 u .start := by
    unfold ParsesInside at h
    cases hs : u.fwupdate.state with
    | octetStream => exact loop_inside_octetStream wf more 3 (.inr hs)
    | octetStart =>
      rw [hs] at h
      exact loop_inside_octetStart wf more 3 0 .none hs (by rwa [List.drop_zero])
    | header =>
      rw [hs] at h
      obtain ⟨hcase, hnext⟩ := headerCase_inside more u.fwupdate h
      rcases Nat.eq_zero_or_pos b.length with hl | hl
      · rw [Cursor.start, fwupdateLoop_end wf (by omega), fwupdateLoop_end wf (by omega)]
      · have hp : ∀ mem, fwupdatePass wf mem b.length u ⟨some 0, 0, .none⟩ 0 =
            ({ u with fwupdate := (headerCase mem b.length u.fwupdate .start 0).1 },
              (headerCase mem b.length u.fwupdate .start 0).2) := by
          intro mem
          simp only [fwupdatePass, hs, Cursor.start]
        rw [Cursor.start, fwupdateLoop_pass wf hl, fwupdateLoop_pass wf hl, hp, hp, hcase]
        rcases hnext with hnull | ⟨fw', k, c, r, heq, hst, hbody⟩
        · exact loop_inside_octetStream wf more 2 (.inl hnull)
        · rw [heq]
          exact loop_inside_octetStart wf more 2 c r hst hbody
  simp only [fwupdateMultipartStateMachine, hloop]

/-! ## The content length of a call -/

section ContentLength

variable {mem : List UInt8} {buflen : Nat}

theorem fwupdatePass_contentLength (cur : Cursor) (k : Nat) (hs : u.fwupdate.state ≠ .header) :
    (fwupdatePass wf mem buflen u cur k).1.fwupdate.contentLength = u.fwupdate.contentLength ∧
      ((fwupdatePass wf mem buflen u cur k).2.buf = none ∨
        (fwupdatePass wf mem buflen u cur k).1.fwupdate.state ≠ .header) := by
  unfold fwupdatePass
  cases hst : u.fwupdate.state with
  | header => exact absurd hst hs
  | octetStart =>
    simp only [octetStartCase]
    split
    · exact ⟨rfl, .inl rfl⟩
    · exact ⟨rfl, .inr (by simp)⟩
  | octetStream =>
    refine ⟨?_, .inl rfl⟩
    simp only [octetStream]
    split <;> rfl

theorem fwupdateLoop_contentLength (n : Nat) {cur : Cursor}
    (h : cur.buf = none ∨ u.fwupdate.state ≠ .header) :
    (fwupdateLoop wf mem buflen n u cur).1.fwupdate.contentLength = u.fwupdate.contentLength := by
  induction n generalizing u cur with
  | zero => rfl
  | succ n ih =>
    obtain ⟨_ | k, c, r⟩ := cur
    · rw [fwupdateLoop_null]
    · by_cases hk : k < buflen
      · obtain ⟨hlen, hnext⟩ :=
          @fwupdatePass_contentLength F wf u mem buflen ⟨some k, c, r⟩ k (h.resolve_left (by simp))
        rw [fwupdateLoop_pass wf hk, ih hnext, hlen]
      · rw [fwupdateLoop_end wf hk]

theorem machine_contentLength {o : Nat} (hs : u.fwupdate.state = .header)
    (hp : isPostHeader mem buflen = true) (ho : strstr mem contentLengthTag = some o) :
    (fwupdateMultipartStateMachine wf u mem buflen).1.fwupdate.contentLength =
      atoi (mem.drop (o + contentLengthTag.length)) := by
  simp only [isPostHeader, Bool.and_eq_true, decide_eq_true_eq] at hp
  have hcase : (headerCase mem buflen u.fwupdate .start 0).1.contentLength =
        atoi (mem.drop (o + contentLengthTag.length)) ∧
      ((headerCase mem buflen u.fwupdate .start 0).2.buf = none ∨
        (headerCase mem buflen u.fwupdate .start 0).1.state ≠ .header) := by
    unfold headerCase
    simp only [List.drop_zero, Nat.zero_add, ge_iff_le, hp, and_self, ↓reduceIte, ho]
    split
    · split
      · exact ⟨rfl, .inl rfl⟩
      · exact ⟨rfl, .inr (by simp)⟩
    · exact ⟨rfl, .inl rfl⟩
  have hpass : fwupdatePass wf mem buflen u ⟨some 0, 0, .none⟩ 0 =
      ({ u with fwupdate := (headerCase mem buflen u.fwupdate .start 0).1 },
        (headerCase mem buflen u.fwupdate .start 0).2) := by
    simp only [fwupdatePass, hs, Cursor.start]
  rw [fwupdateMultipartStateMachine, Cursor.start, fwupdateLoop_pass wf (by omega), hpass]
  dsimp only
  rw [fwupdateLoop_contentLength wf 2 hcase.2]
  exact hcase.1

end ContentLength

/-! ## Searches that do not end inside -/

section Outside

def LikeNul (wf : WriteFlash F) (u : Updater F) (b : List UInt8) : Prop :=
  ∀ m, 0 ∈ m →
    (fwupdateMultipartStateMachine wf u (b ++ m) b.length).2 =
        (fwupdateMultipartStateMachine wf u (b ++ [0]) b.length).2 ∧
      (fwupdateMultipartStateMachine wf u (b ++ m) b.length).1.fwupdate.contentLength =
        (fwupdateMultipartStateMachine wf u (b ++ [0]) b.length).1.fwupdate.contentLength

variable {wf}

theorem LikeNul.bodyInside (h : LikeNul wf u b) (hs : u.fwupdate.state = .octetStart) :
    BodyInside b := by
  by_contra hin
  rw [BodyInside, not_or] at hin
  obtain ⟨hne, hopen⟩ := hin
  have hl := List.length_pos_iff.mpr hne
  obtain ⟨o, ho, hlt⟩ := strstr_tok hopen (by decide) [0]
  have hnul := machine_octetStart_none wf hs hl (strstr_nul hopen)
  have htok := machine_octetStart_end wf hs hl ho rfl (Nat.le_of_lt hlt)
  have hstatus := (h (octetStreamTag ++ [0]) (by simp)).1
  rw [hnul, htok] at hstatus
  cases hstatus

variable (hs : u.fwupdate.state = .header)
include hs

theorem status_header_none {mem : List UInt8} {buflen : Nat} (h : parseHeader mem buflen = none) :
    (fwupdateMultipartStateMachine wf u mem buflen).2 ≠ .inprogress := by
  obtain ⟨n, ret, hm, hret, -⟩ := machine_header_none wf hs h
  rw [hm]
  show ret ≠ .inprogress
  rcases hret with rfl | rfl <;> decide

theorem status_header_past {mem : List UInt8} {buflen k : Nat} {n : Int}
    (h : parseHeader mem buflen = some (n, k)) (hk : buflen ≤ k) :
    (fwupdateMultipartStateMachine wf u mem buflen).2 = .inprogress := by
  have hloop := (header_loop wf hs h).trans (fwupdateLoop_end wf (by omega))
  rw [machine_eq wf hloop]

variable (hp : isPostHeader b b.length = true)
include hp

omit hs in
theorem parseHeader_append (m : List UInt8) :
    parseHeader (b ++ m) b.length =
      (strstr (b ++ m) contentLengthTag).bind fun o =>
        if 0 < atoi ((b ++ m).drop (o + contentLengthTag.length)) then
          (strstr ((b ++ m).drop (o + contentLengthTag.length)) emptyLineTag).map fun o' =>
            (atoi ((b ++ m).drop (o + contentLengthTag.length)),
              o + contentLengthTag.length + o' + emptyLineTag.length)
        else none := by
  rw [parseHeader, isPostHeader_append, if_pos hp]

theorem LikeNul.settled_contentLength (h : LikeNul wf u b) : Settled contentLengthTag b := by
  by_contra hopen
  have hnul : parseHeader (b ++ [0]) b.length = none := by
    rw [parseHeader_append hp, strstr_nul hopen]
    rfl
  have htag := strstr_tok_unbordered hopen (by decide) (bytes "1\r\n\r\n" ++ [0]) (by decide)
  have hrest : (b ++ (contentLengthTag ++ (bytes "1\r\n\r\n" ++ [0]))).drop
      (b.length + contentLengthTag.length) = bytes "1\r\n\r\n" ++ [0] := by
    rw [← List.append_assoc, List.drop_left' (by rw [List.length_append])]
  have htok : parseHeader (b ++ (contentLengthTag ++ (bytes "1\r\n\r\n" ++ [0]))) b.length =
      some (1, b.length + contentLengthTag.length + 1 + emptyLineTag.length) := by
    rw [parseHeader_append hp, htag, Option.bind_some, hrest,
      show atoi (bytes "1\r\n\r\n" ++ [0]) = 1 by decide,
      show strstr (bytes "1\r\n\r\n" ++ [0]) emptyLineTag = some 1 by decide]
    rfl
  have hstatus := (h (contentLengthTag ++ (bytes "1\r\n\r\n" ++ [0])) (by simp)).1
  rw [status_header_past hs htok (by omega)] at hstatus
  exact status_header_none hs hnul hstatus.symm

variable {o : Nat} (ho : strstr b contentLengthTag = some o)
include ho

theorem LikeNul.numberEnds (h : LikeNul wf u b) :
    NumberEnds (b.drop (o + contentLengthTag.length)) := by
  have hle := strstr_length ho
  have hlen := (h ([53] ++ [0]) (by simp)).2
  rw [machine_contentLength wf hs (by rw [isPostHeader_append, hp]) (strstr_append ho),
    machine_contentLength wf hs (by rw [isPostHeader_append, hp]) (strstr_append ho),
    List.drop_append_of_le_length hle, List.drop_append_of_le_length hle, ← List.append_assoc,
    atoi_append_nul, atoi_append_nul] at hlen
  exact hlen

variable (hends : NumberEnds (b.drop (o + contentLengthTag.length)))
  (hpos : 0 < atoi (b.drop (o + contentLengthTag.length)))
include hends hpos

omit hs in
theorem parseHeader_number (m : List UInt8) :
    parseHeader (b ++ m) b.length =
      (strstr (b.drop (o + contentLengthTag.length) ++ m) emptyLineTag).map fun o' =>
        (atoi (b.drop (o + contentLengthTag.length)),
          o + contentLengthTag.length + o' + emptyLineTag.length) := by
  rw [parseHeader_append hp, strstr_append ho, Option.bind_some,
    List.drop_append_of_le_length (strstr_length ho), atoi_append hends, if_pos hpos]

theorem LikeNul.settled_emptyLine (h : LikeNul wf u b) :
    Settled emptyLineTag (b.drop (o + contentLengthTag.length)) := by
  by_contra hopen
  have hle := strstr_length ho
  obtain ⟨o', ho', hlt⟩ := strstr_tok hopen (by decide) [0]
  have hnul : parseHeader (b ++ [0]) b.length = none := by
    rw [parseHeader_number hp ho hends hpos, strstr_nul hopen]
    rfl
  have htok := parseHeader_number hp ho hends hpos (emptyLineTag ++ [0])
  rw [ho', Option.map_some] at htok
  rw [List.length_drop] at hlt
  have hstatus := (h (emptyLineTag ++ [0]) (by simp)).1
  rw [status_header_past hs htok (by omega)] at hstatus
  exact status_header_none hs hnul hstatus.symm

variable {o' : Nat} (ho' : strstr (b.drop (o + contentLengthTag.length)) emptyLineTag = some o')
include ho'

theorem LikeNul.bodyInside_header (h : LikeNul wf u b) :
    BodyInside (b.drop (o + contentLengthTag.length + o' + emptyLineTag.length)) := by
  generalize hk : o + contentLengthTag.length + o' + emptyLineTag.length = k
  by_contra hin
  rw [BodyInside, not_or] at hin
  obtain ⟨hne, hopen⟩ := hin
  have hlt : k < b.length := by
    have := List.length_pos_iff.mpr hne
    rw [List.length_drop] at this
    omega
  have hdrop : ∀ m, (b ++ m).drop k = b.drop k ++ m := fun m =>
    List.drop_append_of_le_length (by omega)
  have hparse : ∀ m, parseHeader (b ++ m) b.length =
      some (atoi (b.drop (o + contentLengthTag.length)), k) := by
    intro m
    rw [parseHeader_number hp ho hends hpos, strstr_append ho', Option.map_some, hk]
  have hnul := header_loop wf hs (hparse [0])
  rw [octetStart_loop_none wf (n := 1) rfl hlt (by rw [hdrop, strstr_nul hopen])] at hnul
  obtain ⟨e, he, hge⟩ := strstr_tok hopen (by decide) [0]
  rw [List.length_drop] at hge
  have htok := header_loop wf hs (hparse (octetStreamTag ++ [0]))
  rw [octetStart_loop_end wf (n := 1) (e := k + e + octetStreamTag.length) rfl hlt
    (by rw [hdrop, he]) rfl (by omega)] at htok
  have hstatus := (h (octetStreamTag ++ [0]) (by simp)).1
  rw [machine_eq wf hnul, machine_eq wf htok] at hstatus
  cases hstatus

end Outside

/-- **A buffer whose continuations are all answered alike is parsed inside.** -/
theorem LikeNul.parsesInside {wf : WriteFlash F} (h : LikeNul wf u b) :
    ParsesInside u.fwupdate b := by
  unfold ParsesInside
  cases hs : u.fwupdate.state with
  | octetStream => trivial
  | octetStart => exact h.bodyInside hs
  | header =>
    intro hp
    refine ⟨h.settled_contentLength hs hp, fun o ho => ?_⟩
    have hends := h.numberEnds hs hp ho
    refine ⟨hends, fun hpos => ⟨h.settled_emptyLine hs hp ho hends hpos, fun o' ho' => ?_⟩⟩
    exact h.bodyInside_header hs hp ho hends hpos ho'

/-! ## Received bytes only -/

/-- **When parsing depends on the received bytes only.** For every state of the machine, every
driver and every buffer: any two memories that hold a NUL and follow the buffer give the same call,
if and only if the buffer is parsed inside. -/
theorem parses_received_bytes_iff (wf : WriteFlash F)
    (u : Updater (F × List (Nat × List UInt8 × Nat))) (b : List UInt8) :
    (∀ m₁ m₂ : List UInt8, 0 ∈ m₁ → 0 ∈ m₂ →
        SameCall (fwupdateMultipartStateMachine (recording wf) u (b ++ m₁) b.length)
          (fwupdateMultipartStateMachine (recording wf) u (b ++ m₂) b.length)) ↔
      ParsesInside u.fwupdate b := by
  constructor
  · intro h
    have hlike : LikeNul (recording wf) u b := by
      intro m hm
      have hsame := h m [0] hm (by simp)
      exact ⟨hsame.status, by rw [hsame.fwupdate]⟩
    exact hlike.parsesInside
  · intro h m₁ m₂ _ _
    rw [machine_inside (recording wf) m₁ u h, machine_inside (recording wf) m₂ u h]
    exact ⟨rfl, rfl, rfl, rfl, rfl, rfl⟩

def cutTag : List UInt8 := bytes "application/octet-stream\r\n\r"

def afterBegin : Updater (Unit × List (Nat × List UInt8 × Nat)) :=
  (httpdPostBegin (powerOn ((), [])) 1 (bytes "/upload") 100).1.upd

/-- In `OCTET_START` the tag is found when its last byte lies behind the buffer, and is not when a
NUL lies there. -/
theorem tag_found_behind :
    ¬ ∀ m₁ m₂ : List UInt8, 0 ∈ m₁ → 0 ∈ m₂ →
      SameCall
        (fwupdateMultipartStateMachine (recording fun _ _ _ _ => (cmdSuccess, ())) afterBegin
          (cutTag ++ m₁) cutTag.length)
        (fwupdateMultipartStateMachine (recording fun _ _ _ _ => (cmdSuccess, ())) afterBegin
          (cutTag ++ m₂) cutTag.length) := by
  intro h
  have hstatus := (h [10, 0] [0] (by decide) (by decide)).status
  revert hstatus
  decide

end AdcUdpStream.Loader
