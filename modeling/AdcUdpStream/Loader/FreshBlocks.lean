import AdcUdpStream.Loader.Session

/-!
# What a block is made of

`dataArr` keeps what it held: only the `memset` behind a written full block clears
it, and neither the rest of a file nor a new POST takes `flash_cnt` back to 0. The
driver keeps a record of what it is handed (`handing`), and beside the block loop
runs the history of the bytes since the last block (`Waiting`), each with the number
of the upload that sent it. `move` is one byte, or the write of the rest, and the state
machine does nothing else to the block loop (`feed_moves`). What a `Clean` move hands
over is fresh (`move_known`), and so is every block of a run of clean moves
(`fresh_blocks`).
-/

namespace AdcUdpStream.Loader

open CStr Steps

variable {F : Type} (wf : WriteFlash F)

/-! ## What is handed over -/

/-- The blocks handed to `write_flash`, with the codes it answered, newest first. -/
abbrev Handed := List (List UInt8 × Nat)

/-- A driver that keeps what it is handed beside its own state. -/
def handing : WriteFlash (F × Handed) := fun g dst src n =>
  ((wf g.1 dst src n).1, (wf g.1 dst src n).2, (src, (wf g.1 dst src n).1) :: g.2)

/-- A block handed over, with the stream bytes received since the block before it, each with the
number of its upload, and the number of the upload in progress. -/
structure Handover where
  block : List UInt8
  since : List (UInt8 × Nat)
  upload : Nat

/-- **Fresh**: 1 to 1024 bytes received since the block before, all of the upload in progress, and
`0xff` behind them. -/
structure Handover.Fresh (h : Handover) : Prop where
  nonempty : 1 ≤ h.since.length
  fits : h.since.length ≤ 1024
  own : ∀ b ∈ h.since, b.2 = h.upload
  block : h.block = h.since.map Prod.fst ++ List.replicate (1024 - h.since.length) 0xff

/-- The history beside the block loop. -/
structure Waiting where
  /-- The bytes received since the last block. -/
  since : List (UInt8 × Nat) := []
  /-- The accepted begins. -/
  upload : Nat := 0
  /-- A begin was accepted while bytes for the block were waiting. -/
  mixed : Bool := false
  /-- A file has ended within the block. -/
  ended : Bool := false
  /-- There was a full block, and the last one was written. -/
  erased : Bool := false

/-! ## One move of the block loop -/

/-- What `OCTET_STREAM` does with a buffer, in pieces. -/
inductive Move where
  | byte (x : UInt8)
  | rest

def handedBetween (s s' : Stage (F × Handed)) : Option (List UInt8 × Nat) :=
  if s.flash.2.length < s'.flash.2.length then s'.flash.2.head? else none

/-- One move, with the history. The rest of a file leaves its bytes in `dataArr`. -/
def move (t : Stage (F × Handed) × Waiting) :
    Move → (Stage (F × Handed) × Waiting) × Option Handover
  | .byte x =>
    let s := storeByte (handing wf) t.1 x
    let since := t.2.since ++ [(x, t.2.upload)]
    match handedBetween t.1 s with
    | none => ((s, { t.2 with since }), none)
    | some (block, code) =>
      ((s, { upload := t.2.upload, erased := code = cmdSuccess }),
        some ⟨block, since, t.2.upload⟩)
  | .rest =>
    let s := writeRest (handing wf) t.1
    match handedBetween t.1 s with
    | none => ((s, t.2), none)
    | some (block, _) =>
      ((s, { t.2 with since := [], mixed := false, ended := true }),
        some ⟨block, t.2.since, t.2.upload⟩)

/-- When a block is handed over, no begin was accepted while its bytes were waiting and no file has
ended within it; and the rest of a file comes after a full block that was written. -/
def Clean (t : Stage (F × Handed) × Waiting) : Move → Prop
  | .byte _ => 1024 ≤ (t.1.flashCnt : Nat) + 1 → t.2.mixed = false ∧ t.2.ended = false
  | .rest => 0 < (t.1.flashCnt : Nat) →
    t.2.mixed = false ∧ t.2.ended = false ∧ t.2.erased = true

/-- What the history knows about `dataArr`. -/
structure Known (t : Stage (F × Handed) × Waiting) : Prop where
  pend : t.2.ended = false → t.1.pend = t.2.since.map Prod.fst
  own : t.2.mixed = false → ∀ b ∈ t.2.since, b.2 = t.2.upload
  tail : t.2.erased = true →
    t.1.dataArr.toList.drop t.1.flashCnt = List.replicate (1024 - t.1.flashCnt) 0xff

def Stage.blocks (s : Stage (F × Handed)) : List (List UInt8) := s.flash.2.map Prod.fst

section Move

variable {t : Stage (F × Handed) × Waiting}

theorem move_byte_lt (x : UInt8) (h : (t.1.flashCnt : Nat) + 1 < 1024) :
    move wf t (.byte x) =
      ((storeByte (handing wf) t.1 x, { t.2 with since := t.2.since ++ [(x, t.2.upload)] }),
        none) := by
  obtain ⟨-, -, -, hflash⟩ := storeByte_lt (handing wf) x h
  have hnone : handedBetween t.1 (storeByte (handing wf) t.1 x) = none := by
    unfold handedBetween
    rw [hflash, if_neg (Nat.lt_irrefl _)]
  simp only [move, hnone]

theorem move_byte_full (x : UInt8) (h : ¬ (t.1.flashCnt : Nat) + 1 < 1024) :
    move wf t (.byte x) =
      ((storeByte (handing wf) t.1 x,
          { upload := t.2.upload
            erased := (wf t.1.flash.1 t.1.flashPos (t.1.pend ++ [x]) 1024).1 = cmdSuccess }),
        some ⟨t.1.pend ++ [x], t.2.since ++ [(x, t.2.upload)], t.2.upload⟩) := by
  obtain ⟨-, -, hflash⟩ := storeByte_full (handing wf) x h
  have hsome : handedBetween t.1 (storeByte (handing wf) t.1 x) =
      some (t.1.pend ++ [x],
        (wf t.1.flash.1 t.1.flashPos (t.1.pend ++ [x]) 1024).1) := by
    unfold handedBetween
    rw [hflash]
    simp [handing]
  simp only [move, hsome]

theorem move_rest_pos (h : 0 < (t.1.flashCnt : Nat)) :
    move wf t .rest =
      ((writeRest (handing wf) t.1, { t.2 with since := [], mixed := false, ended := true }),
        some ⟨t.1.dataArr.toList, t.2.since, t.2.upload⟩) := by
  have hsome : handedBetween t.1 (writeRest (handing wf) t.1) =
      some (t.1.dataArr.toList,
        (wf t.1.flash.1 t.1.flashPos t.1.dataArr.toList 1024).1) := by
    unfold handedBetween
    rw [writeRest_eq, if_pos h]
    simp [handing]
  simp only [move, hsome]

theorem move_rest_zero (h : ¬ 0 < (t.1.flashCnt : Nat)) : move wf t .rest = (t, none) := by
  have hstage : writeRest (handing wf) t.1 = t.1 := by
    rw [writeRest, if_neg h]
  have hnone : handedBetween t.1 t.1 = none := if_neg (Nat.lt_irrefl _)
  simp only [move, hstage, hnone]

theorem put_drop (s : Stage F) (x : UInt8) :
    (s.put x).toList.drop (s.flashCnt + 1) = s.dataArr.toList.drop (s.flashCnt + 1) := by
  unfold Stage.put
  rw [Vector.toList_set]
  exact List.drop_set_of_lt (Nat.lt_succ_self _)

theorem byte_known (ht : Known t) (x : UInt8) :
    Known (move wf t (.byte x)).1 ∧
      (Clean t (.byte x) → ∀ h ∈ (move wf t (.byte x)).2, h.Fresh) := by
  obtain ⟨hpend, hown, htail⟩ := ht
  have hown' : t.2.mixed = false →
      ∀ b ∈ t.2.since ++ [(x, t.2.upload)], b.2 = t.2.upload := by
    intro hm b hb
    rcases List.mem_append.mp hb with hb | hb
    · exact hown hm b hb
    · rw [List.mem_singleton.mp hb]
  by_cases hfull : (t.1.flashCnt : Nat) + 1 < 1024
  · obtain ⟨hpend', hcnt, -, -⟩ := storeByte_lt (handing wf) x hfull
    rw [move_byte_lt wf x hfull]
    refine ⟨⟨fun he => ?_, hown', fun he => ?_⟩, fun _ _ hh => absurd hh (Option.not_mem_none _)⟩
    · show (storeByte (handing wf) t.1 x).pend = _
      rw [hpend', hpend he, List.map_append]
      rfl
    · have hdrop := congrArg (List.drop 1) (htail he)
      rw [List.drop_drop, List.drop_replicate] at hdrop
      dsimp only
      rw [hcnt, storeByte, dif_pos hfull]
      dsimp only
      rw [put_drop, hdrop, Nat.sub_sub]
  · obtain ⟨hcnt, -, -⟩ := storeByte_full (handing wf) x hfull
    rw [move_byte_full wf x hfull]
    constructor
    · refine ⟨fun _ => ?_, fun _ => List.forall_mem_nil _, fun he => ?_⟩
      · exact List.eq_nil_of_length_eq_zero (by rw [Stage.pend_length, hcnt])
      · dsimp only
        rw [hcnt, storeByte_written (handing wf) x hfull (of_decide_eq_true he),
          Vector.toList_replicate]
        rfl
    · intro hclean h hh
      obtain rfl := Option.mem_some_iff.mp hh
      have hlt := t.1.flashCnt.isLt
      obtain ⟨hm, he⟩ := hclean (by omega)
      have hlen := congrArg List.length (hpend he)
      rw [Stage.pend_length, List.length_map] at hlen
      have hlast : (t.2.since ++ [(x, t.2.upload)]).length = 1024 := by
        rw [List.length_append, List.length_singleton]
        omega
      refine ⟨hlast ▸ by decide, hlast.le, hown' hm, ?_⟩
      dsimp only
      rw [hlast, hpend he, List.map_append, Nat.sub_self, List.replicate_zero, List.append_nil]
      rfl

theorem rest_known (ht : Known t) :
    Known (move wf t .rest).1 ∧ (Clean t .rest → ∀ h ∈ (move wf t .rest).2, h.Fresh) := by
  obtain ⟨hpend, hown, htail⟩ := ht
  by_cases hpos : 0 < (t.1.flashCnt : Nat)
  · rw [move_rest_pos wf hpos]
    constructor
    · refine ⟨Bool.noConfusion, fun _ => List.forall_mem_nil _, ?_⟩
      rw [writeRest_eq]
      exact htail
    · intro hclean h hh
      obtain rfl := Option.mem_some_iff.mp hh
      obtain ⟨hm, he, ht⟩ := hclean hpos
      have hlen := congrArg List.length (hpend he)
      rw [Stage.pend_length, List.length_map] at hlen
      have hlt := t.1.flashCnt.isLt
      rw [hlen] at hpos hlt
      refine ⟨hpos, hlt.le, hown hm, ?_⟩
      -- what is behind was erased with the last full block
      dsimp only
      rw [← hlen, ← htail ht, ← hpend he]
      exact (List.take_append_drop ..).symm
  · rw [move_rest_zero wf hpos]
    exact ⟨⟨hpend, hown, htail⟩, fun _ _ hh => absurd hh (Option.not_mem_none _)⟩

/-- **One move.** What is known stays known, and a clean move hands over fresh blocks only. -/
theorem move_known (ht : Known t) (m : Move) :
    Known (move wf t m).1 ∧ (Clean t m → ∀ h ∈ (move wf t m).2, h.Fresh) := by
  cases m with
  | byte x => exact byte_known wf ht x
  | rest => exact rest_known wf ht

theorem move_blocks (t : Stage (F × Handed) × Waiting) (m : Move) :
    (move wf t m).1.1.blocks = ((move wf t m).2.map Handover.block).toList ++ t.1.blocks := by
  unfold Stage.blocks
  cases m with
  | byte x =>
    by_cases hfull : (t.1.flashCnt : Nat) + 1 < 1024
    · rw [move_byte_lt wf x hfull]
      dsimp only
      rw [(storeByte_lt (handing wf) x hfull).2.2.2]
      rfl
    · rw [move_byte_full wf x hfull]
      dsimp only
      rw [(storeByte_full (handing wf) x hfull).2.2]
      rfl
  | rest =>
    by_cases hpos : 0 < (t.1.flashCnt : Nat)
    · rw [move_rest_pos wf hpos]
      dsimp only
      rw [writeRest_eq, if_pos hpos]
      rfl
    · rw [move_rest_zero wf hpos]
      rfl

end Move

/-! ## One pbuf -/

/-- The moves of a pbuf: its file bytes, and the rest when they reach the end of the file. -/
def moves (u : Updater F) (q : Segment) : List Move :=
  match fileStart u.fwupdate q.mem q.payload.length with
  | none => []
  | some (k, fl) =>
    if k < q.payload.length then
      (q.payload.drop k).map Move.byte ++
        if fl ≤ u.curlen + (q.payload.length - k : Nat) then [.rest] else []
    else []

section Feed

variable (w : Waiting)

@[simp] theorem move_byte_stage (t : Stage (F × Handed) × Waiting) (x : UInt8) :
    (move wf t (.byte x)).1.1 = storeByte (handing wf) t.1 x := by
  unfold move
  dsimp only
  split <;> rfl

@[simp] theorem move_rest_stage (t : Stage (F × Handed) × Waiting) :
    (move wf t .rest).1.1 = writeRest (handing wf) t.1 := by
  unfold move
  dsimp only
  split <;> rfl

theorem bytes_stage (t : Stage (F × Handed) × Waiting) (xs : List UInt8) :
    (final (move wf) t (xs.map Move.byte)).1 = xs.foldl (storeByte (handing wf)) t.1 := by
  induction xs generalizing t with
  | nil => rfl
  | cons x xs ih => rw [List.map_cons, final_cons, ih, move_byte_stage, List.foldl_cons]

/-- **The state machine makes these moves** of the block loop. -/
theorem feed_moves (u : Updater (F × Handed)) (q : Segment) :
    (feed (handing wf) u q).1.stage = (final (move wf) (u.stage, w) (moves u q)).1 := by
  rcases fileStart_cases u.fwupdate q.mem q.payload.length with ⟨k, fl, hs, hk⟩ | hnone
  · obtain ⟨fw, -, rfl, hm⟩ := machine_file (handing wf) hs hk
    rw [q.mem_take] at hm
    unfold feed
    simp only [hm, moves, hs, if_pos hk, ← List.length_drop]
    by_cases hle : fw.fileLength ≤ u.curlen + (q.payload.drop k).length
    · rw [octetStream_done (handing wf) (u := { u with fwupdate := fw }) hle, if_pos hle,
        final_append, final_cons, final_nil, move_rest_stage, bytes_stage]
    · rw [octetStream_inprogress (handing wf) (u := { u with fwupdate := fw })
        (Int.not_le.mp hle), if_neg hle, List.append_nil, bytes_stage]
  · obtain ⟨fw, ret, hm, -⟩ := machine_no_file (handing wf) hnone
    have hmoves : moves u q = [] := by
      unfold moves
      split
      · rfl
      · next k fl hs => rw [if_neg (Nat.not_lt.mpr (hnone k fl hs))]
    unfold feed
    rw [hm, hmoves]
    rfl

theorem bytes_clean {t : Stage (F × Handed) × Waiting} (xs : List UInt8)
    (h : t.2.mixed = false ∧ t.2.ended = false) :
    Along (move wf) Clean t (xs.map Move.byte) := by
  induction xs generalizing t with
  | nil => trivial
  | cons x xs ih =>
    refine ⟨fun _ => h, ih ?_⟩
    by_cases hfull : (t.1.flashCnt : Nat) + 1 < 1024
    · rw [move_byte_lt wf x hfull]
      exact h
    · rw [move_byte_full wf x hfull]
      exact ⟨rfl, rfl⟩

/-- Behind bytes that fill a block, with a driver that succeeds, the rest of a file is clean. -/
theorem bytes_rest_clean (hok : ∀ f dst src n, (wf f dst src n).1 = cmdSuccess)
    {t : Stage (F × Handed) × Waiting} (xs : List UInt8)
    (h : t.2.mixed = false ∧ t.2.ended = false)
    (hfill : t.2.erased = true ∨ 1024 ≤ (t.1.flashCnt : Nat) + xs.length) :
    Clean (final (move wf) t (xs.map Move.byte)) .rest := by
  induction xs generalizing t with
  | nil =>
    have hlt := t.1.flashCnt.isLt
    rw [List.length_nil] at hfill
    exact fun _ => ⟨h.1, h.2, hfill.resolve_right (by omega)⟩
  | cons x xs ih =>
    rw [List.map_cons, final_cons]
    rw [List.length_cons] at hfill
    by_cases hfull : (t.1.flashCnt : Nat) + 1 < 1024
    · obtain ⟨-, hcnt, -, -⟩ := storeByte_lt (handing wf) x hfull
      rw [move_byte_lt wf x hfull]
      refine ih h (hfill.imp_right fun hle => ?_)
      dsimp only
      omega
    · rw [move_byte_full wf x hfull]
      exact ih ⟨rfl, rfl⟩ (.inl (decide_eq_true (hok ..)))

variable {t : Stage (F × Handed) × Waiting}

theorem moves_known (ht : Known t) (ms : List Move) :
    Known (final (move wf) t ms) ∧
      (Along (move wf) Clean t ms → ∀ h ∈ (outs (move wf) t ms).reduceOption, h.Fresh) := by
  have hstep : ∀ t m, Known t → Known (move wf t m).1 := fun t m ht => (move_known wf ht m).1
  refine ⟨final_inv_of_step hstep ms ht, fun hclean h hh => ?_⟩
  have houts : ∀ o ∈ outs (move wf) t ms, ∀ h ∈ o, h.Fresh :=
    outs_of_inv (P := fun o : Option Handover => ∀ h ∈ o, h.Fresh)
      (fun t m ht _ => hstep t m ht) (fun t m ht hc => (move_known wf ht m).2 hc) ht hclean
  exact houts (some h) (List.reduceOption_mem_iff.mp hh) h rfl

theorem moves_blocks (t : Stage (F × Handed) × Waiting) (ms : List Move) :
    (final (move wf) t ms).1.blocks =
      ((outs (move wf) t ms).reduceOption.map Handover.block).reverse ++ t.1.blocks := by
  induction ms generalizing t with
  | nil => rfl
  | cons m ms ih =>
    rw [final_cons, ih, move_blocks, outs_cons, ← List.append_assoc]
    congr 1
    cases (move wf t m).2 with
    | none => simp
    | some h => simp

end Feed

/-! ## Runs -/

structure Watched (F : Type) where
  post : Post (F × Handed)
  wait : Waiting := {}

def Watched.powerOn (f : F) : Watched F := { post := Loader.powerOn (f, []) }

def Watched.loop (t : Watched F) : Stage (F × Handed) × Waiting := (t.post.upd.stage, t.wait)

def Waiting.opened (w : Waiting) : Waiting :=
  { w with upload := w.upload + 1, mixed := !w.since.isEmpty }

def watchedStep (t : Watched F) (e : Event) : Watched F × List Handover :=
  let r := step (handing wf) t.post e
  match e with
  | .postBegin .. =>
    ({ post := r.1, wait := if r.2.err = .ok then t.wait.opened else t.wait }, [])
  | .receiveData _ p =>
    if r.2.status = none then ({ t with post := r.1 }, [])
    else
      ({ post := r.1, wait := (final (move wf) t.loop (moves t.post.upd p.head)).2 },
        (outs (move wf) t.loop (moves t.post.upd p.head)).reduceOption)
  | .postFinished _ => ({ t with post := r.1 }, [])

/-- The moves a pbuf of the current connection makes are clean. -/
def KeepsClean (t : Watched F) : Event → Prop
  | .receiveData c p => t.post.jumped = false → t.post.currentConnection = some c →
    Along (move wf) Clean t.loop (moves t.post.upd p.head)
  | _ => True

section Watched

variable {t : Watched F}

theorem Known.opened {s : Stage (F × Handed)} {w : Waiting} (h : Known (s, w)) :
    Known (s, w.opened) := by
  refine ⟨h.pend, fun hm => ?_, h.tail⟩
  have hnil : w.since = [] := by simpa [Waiting.opened] using hm
  show ∀ b ∈ w.since, b.2 = w.upload + 1
  rw [hnil]
  exact List.forall_mem_nil _

theorem watched_step (ht : Known t.loop) (e : Event) :
    Known (watchedStep wf t e).1.loop ∧
      (watchedStep wf t e).1.post.upd.stage.blocks =
        ((watchedStep wf t e).2.map Handover.block).reverse ++ t.post.upd.stage.blocks ∧
      (KeepsClean wf t e → ∀ h ∈ (watchedStep wf t e).2, h.Fresh) := by
  have hcall := step_call (handing wf) t.post e
  unfold watchedStep
  generalize step (handing wf) t.post e = r at hcall ⊢
  cases hcall with
  | @fed c p s' hj hc hupd hc' hj' hreboot =>
    have hstage := feed_moves wf t.wait t.post.upd p.head
    rw [← hupd] at hstage
    have hloop : (s'.upd.stage, (final (move wf) t.loop (moves t.post.upd p.head)).2) =
        final (move wf) t.loop (moves t.post.upd p.head) := Prod.ext hstage rfl
    obtain ⟨hknown, hfresh⟩ := moves_known wf ht (moves t.post.upd p.head)
    refine ⟨?_, ?_, fun hclean => hfresh (hclean hj hc)⟩
    · rw [← hloop] at hknown
      exact hknown
    · show s'.upd.stage.blocks = _
      rw [hstage]
      exact moves_blocks wf t.loop _
  | off hj =>
    cases e with
    | postBegin c uri n => exact ⟨ht, rfl, fun _ => List.forall_mem_nil _⟩
    | receiveData c p => exact ⟨ht, rfl, fun _ => List.forall_mem_nil _⟩
    | postFinished c => exact ⟨ht, rfl, fun _ => List.forall_mem_nil _⟩
  | accepted hj ha => exact ⟨ht.opened, rfl, fun _ => List.forall_mem_nil _⟩
  | refused hj ha => exact ⟨ht, rfl, fun _ => List.forall_mem_nil _⟩
  | unknown hj hc => exact ⟨ht, rfl, fun _ => List.forall_mem_nil _⟩
  | jumps hj hr => exact ⟨ht, rfl, fun _ => List.forall_mem_nil _⟩
  | closes hj hr hc => exact ⟨ht, rfl, fun _ => List.forall_mem_nil _⟩
  | ignores hj hr hc => exact ⟨ht, rfl, fun _ => List.forall_mem_nil _⟩

theorem known_powerOn (f : F) : Known (Watched.powerOn f).loop :=
  ⟨fun _ => rfl, fun _ => List.forall_mem_nil _, Bool.noConfusion⟩

theorem watchedStep_post (t : Watched F) (e : Event) :
    (watchedStep wf t e).1.post = (step (handing wf) t.post e).1 := by
  unfold watchedStep
  cases e with
  | postBegin c uri n => rfl
  | receiveData c p =>
    dsimp only
    split <;> rfl
  | postFinished c => rfl

/-- The blocks handed to `write_flash` in a run from power-on, in order. -/
def handovers (f : F) (es : List Event) : List Handover :=
  (outs (watchedStep wf) (.powerOn f) es).flatten

def Recorded (t : Watched F) (os : List (List Handover)) : Prop :=
  Known t.loop ∧ t.post.upd.stage.blocks = (os.flatten.map Handover.block).reverse

theorem recorded_step {os : List (List Handover)} (e : Event) (h : Recorded t os) :
    Recorded (watchedStep wf t e).1 (os ++ [(watchedStep wf t e).2]) := by
  obtain ⟨ht, hblocks⟩ := h
  obtain ⟨hknown, hgrows, -⟩ := watched_step wf ht e
  refine ⟨hknown, ?_⟩
  rw [hgrows, hblocks, List.flatten_concat, List.map_append, List.reverse_append]

theorem run_blocks (f : F) (es : List Event) :
    (final (step (handing wf)) (powerOn (f, [])) es).upd.stage.blocks =
      ((handovers wf f es).map Handover.block).reverse := by
  have hstep : ∀ (t : Watched F) os e, Recorded t os →
      Recorded (watchedStep wf t e).1 (os ++ [(watchedStep wf t e).2]) :=
    fun _ _ e h => recorded_step wf e h
  have hrun : Recorded (final (watchedStep wf) (.powerOn f) es)
      ([] ++ outs (watchedStep wf) (.powerOn f) es) :=
    final_outs_inv hstep ⟨known_powerOn f, rfl⟩ es
  have hpost : (final (watchedStep wf) (.powerOn f) es).post =
      final (step (handing wf)) (powerOn (f, [])) es :=
    final_map Watched.post (watchedStep_post wf) (.powerOn f) es
  rw [← hpost]
  exact hrun.2

end Watched

/-- **When blocks are fresh.** For every driver and every run of calls from power-on that is clean:
the blocks handed to `write_flash` are those of the handovers, in order, and each of them is
fresh. -/
theorem fresh_blocks (f : F) (es : List Event)
    (h : Along (watchedStep wf) (KeepsClean wf) (.powerOn f) es) :
    (final (step (handing wf)) (powerOn (f, [])) es).upd.stage.blocks =
        ((handovers wf f es).map Handover.block).reverse ∧
      ∀ o ∈ handovers wf f es, o.Fresh := by
  refine ⟨run_blocks wf f es, fun o ho => ?_⟩
  have hstep : ∀ (t : Watched F) (e : Event), Known t.loop → Known (watchedStep wf t e).1.loop :=
    fun t e ht => (watched_step wf ht e).1
  have houts : ∀ os ∈ outs (watchedStep wf) (.powerOn f) es, ∀ o ∈ os, o.Fresh :=
    outs_of_inv (I := fun t => Known t.loop) (P := fun os : List Handover => ∀ o ∈ os, o.Fresh)
      (fun t e ht _ => hstep t e ht) (fun t e ht hc => (watched_step wf ht e).2.2 hc)
      (known_powerOn f) h
  obtain ⟨os, hos, ho⟩ := List.mem_flatten.mp ho
  exact houts os hos o ho

theorem first_pbuf_clean {f : F} {c : Conn} {n : Int} {p : Pbuf}
    (h : Along (move wf) Clean (.powerOn (f, []), { upload := 1 })
      (moves ((powerOn (f, ([] : Handed))).opened c n).upd p.head)) :
    Along (watchedStep wf) (KeepsClean wf) (.powerOn f)
      [.postBegin c (bytes "/upload") n, .receiveData c p] :=
  ⟨trivial, fun _ _ => h, trivial⟩

/-- The preamble, a block of file bytes and one more. -/
def Pbuf.openingLong : Pbuf :=
  .single (Preamble.plain.bytes ++ (List.replicate 1024 65 ++ [66])) (by
    rw [List.length_append, List.length_append, List.length_replicate]
    decide)

def longFile : List Event :=
  [.postBegin 1 (bytes "/upload") 1072, .receiveData 1 .openingLong]

theorem openingLong_moves :
    moves ((powerOn ((), ([] : Handed))).opened 1 1072).upd Pbuf.openingLong.head =
      (List.replicate 1024 (65 : UInt8) ++ [66]).map Move.byte ++ [.rest] := by
  have hlen : Pbuf.openingLong.head.payload.length = 1072 := by
    show (Preamble.plain.bytes ++ (List.replicate 1024 65 ++ [66])).length = 1072
    rw [List.length_append, List.length_append, List.length_replicate]
    decide
  have hdrop : Pbuf.openingLong.head.payload.drop 47 = List.replicate 1024 65 ++ [66] :=
    List.drop_left' (by decide)
  obtain ⟨o, ho, hend⟩ := Preamble.plain.strstr_mem (q := Pbuf.openingLong.head)
    (List.prefix_append _ _)
  have hat : o + octetStreamTag.length = 47 := hend.trans (by decide)
  have hstart : fileStart ((powerOn ((), ([] : Handed))).opened 1 1072).upd.fwupdate
      Pbuf.openingLong.head.mem Pbuf.openingLong.head.payload.length = some (47, 1025) := by
    simp only [fileStart, Post.opened, ho, Option.map_some, hat]
    rfl
  unfold moves
  rw [hstart, hlen]
  simp only [hdrop]
  rfl

theorem fresh_blocks_long :
    (final (step (handing fun _ _ _ _ => (cmdSuccess, ()))) (powerOn ((), []))
        longFile).upd.stage.blocks =
        ((handovers (fun _ _ _ _ => (cmdSuccess, ())) () longFile).map Handover.block).reverse ∧
      ∀ o ∈ handovers (fun _ _ _ _ => (cmdSuccess, ())) () longFile, o.Fresh := by
  refine fresh_blocks _ () longFile (first_pbuf_clean _ ?_)
  rw [openingLong_moves, along_append]
  refine ⟨bytes_clean _ _ ⟨rfl, rfl⟩, ?_, trivial⟩
  refine bytes_rest_clean _ (fun _ _ _ _ => rfl) _ ⟨rfl, rfl⟩ (.inr ?_)
  rw [List.length_append, List.length_replicate]
  exact Nat.le_of_ble_eq_true rfl

/-- The block of a file of one byte has the zeros of power-on behind it. -/
theorem padded_with_zeros :
    ¬ ∀ o ∈ handovers (fun _ _ _ _ => (cmdSuccess, ())) ()
      [.postBegin 1 (bytes "/upload") 48, .receiveData 1 (.opening 65)], o.Fresh := by
  intro h
  have hsecond : (handovers (fun _ _ _ _ => (cmdSuccess, ())) ()
      [.postBegin 1 (bytes "/upload") 48, .receiveData 1 (.opening 65)]).head?.map
        (fun o => (o.block[1]?, o.since)) = some (some 0, [(65, 1)]) := by decide +kernel
  obtain ⟨o, ho, heq⟩ := Option.map_eq_some_iff.mp hsecond
  obtain ⟨hzero, hsince⟩ := Prod.mk.injEq .. ▸ heq
  have hblock := (h o (List.mem_of_mem_head? ho)).block
  rw [hblock, hsince] at hzero
  exact absurd hzero (by decide)

end AdcUdpStream.Loader
