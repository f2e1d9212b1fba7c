import AdcUdpStream.Loader.Session

/-!
# Erase before write

When every command succeeds, the blocks are written from `flash_pos` on, one behind
the other, and a sector is erased when `flash_pos` reaches its start. `flash_pos` does
not move behind the rest of an ended file, so the next block of a later file goes to
the block that holds this rest. `InOrder` says of the commands of a call that no
copy goes to a block that is programmed already and no erase hits a sector the upload
in progress has programmed; along a run it holds exactly as long as nothing is written
to such a rest, but at a sector start by a later upload (`erase_before_write_iff`).
-/

namespace AdcUdpStream.Loader

open Blocks CStr Steps

/-! ## Commands in order -/

def IapEvent.dst? (e : IapEvent) : Option Nat :=
  match e.command with
  | .copyRamToFlash dst _ _ _ => some dst
  | _ => none

def IapEvent.erases (e : IapEvent) (sector : Nat) : Bool :=
  match e.command with
  | .eraseSector s t _ => decide (s ≤ sector ∧ sector ≤ t)
  | _ => false

/-- A copy has gone to `dst` since the last erase of its sector. -/
def Programmed (log : List IapEvent) (dst : Nat) : Prop :=
  ∃ e ∈ log.takeWhile fun e => !e.erases (sectorOf dst), e.dst? = some dst

def CopiesInto (es : List IapEvent) (startSector endSector : Nat) : Prop :=
  ∃ e ∈ es, ∃ a ∈ e.dst?, startSector ≤ sectorOf a ∧ sectorOf a ≤ endSector

/-- The events behind the first `n`. -/
def since (n : Nat) (log : List IapEvent) : List IapEvent := log.take (log.length - n)

/-- A command after `log`, for an upload that began when the log had `n` events: a copy goes to a
block that is not programmed, an erase to sectors this upload has not programmed. -/
def Proper (n : Nat) (log : List IapEvent) : IapCommand → Prop
  | .copyRamToFlash dst _ _ _ => ¬ Programmed log dst
  | .eraseSector s t _ => ¬ CopiesInto (since n log) s t
  | .prepareSectorForWrite .. => True

def InOrder (n : Nat) (log : List IapEvent) : List IapEvent → Prop
  | [] => True
  | e :: es => Proper n (es ++ log) e.command ∧ InOrder n log es

theorem inOrder_append (n : Nat) (log es fs : List IapEvent) :
    InOrder n log (es ++ fs) ↔ InOrder n (fs ++ log) es ∧ InOrder n log fs := by
  induction es with
  | nil => simp [InOrder]
  | cons e es ih =>
    rw [List.cons_append, InOrder, InOrder, ih, List.append_assoc, and_assoc]

instance (log : List IapEvent) (dst : Nat) : Decidable (Programmed log dst) :=
  inferInstanceAs (Decidable (∃ e ∈ _, _))

instance (es : List IapEvent) (s t : Nat) : Decidable (CopiesInto es s t) :=
  inferInstanceAs (Decidable (∃ e ∈ es, ∃ a ∈ IapEvent.dst? e, s ≤ sectorOf a ∧ sectorOf a ≤ t))

/-- `p` is the start of a sector of user flash: a block there is preceded by the sector's erase. -/
def StartsSector (p : Nat) : Prop := p = sectorStart (sectorOf p) ∧ p ≤ userFlashEnd

instance (p : Nat) : Decidable (StartsSector p) := inferInstanceAs (Decidable (_ ∧ _))

/-- The next block may go to `p`: at the start of a sector this upload has not written into the
sector, elsewhere the block is not programmed. -/
structure Free (n : Nat) (log : List IapEvent) (p : Nat) : Prop where
  start : StartsSector p → ¬ CopiesInto (since n log) (sectorOf p) (sectorOf p)
  inner : ¬ StartsSector p → ¬ Programmed log p

/-! ## The commands of a block -/

section Commands

variable {n p : Nat} {log : List IapEvent}

theorem programmed_cons {e : IapEvent} {dst : Nat} (he : e.erases (sectorOf dst) = false)
    (hd : e.dst? = none) : Programmed (e :: log) dst ↔ Programmed log dst := by
  unfold Programmed
  simp [he, hd]

theorem not_programmed_erase {e : IapEvent} {dst : Nat} (he : e.erases (sectorOf dst) = true) :
    ¬ Programmed (e :: log) dst := by
  unfold Programmed
  simp [he]

theorem programmed_copy (src : List UInt8) (noOfBytes cclk result : Nat) :
    Programmed (⟨.copyRamToFlash p src noOfBytes cclk, result⟩ :: log) p := by
  have hkeep : IapEvent.erases ⟨.copyRamToFlash p src noOfBytes cclk, result⟩ (sectorOf p) =
      false := rfl
  unfold Programmed
  rw [List.takeWhile_cons, hkeep, Bool.not_false, if_pos rfl]
  exact ⟨_, List.mem_cons_self .., rfl⟩

theorem since_cons (e : IapEvent) (hn : n ≤ log.length) :
    since n (e :: log) = e :: since n log := by
  unfold since
  rw [List.length_cons, Nat.succ_sub hn, List.take_succ_cons]

theorem copiesInto_cons {e : IapEvent} {es : List IapEvent} {s t : Nat} (hd : e.dst? = none) :
    CopiesInto (e :: es) s t ↔ CopiesInto es s t := by
  unfold CopiesInto
  simp [hd]

theorem sectorLog_outside (cclk : Nat) (hp : userFlashEnd < p) : sectorLog cclk p = [] := by
  have hnone : userSectors.find? (fun i => decide (p < sectorEnd i)) = none := by
    rw [List.find?_eq_none]
    intro i hi
    obtain ⟨h16, h29⟩ := mem_userSectors.mp hi
    have hend : userFlashEnd = 0x7FFFF := rfl
    rw [sectorEnd_user h16, decide_eq_true_eq]
    omega
  unfold sectorLog
  rw [hnone]

theorem free_start (hs : StartsSector p) :
    Free n log p ↔ ¬ CopiesInto (since n log) (sectorOf p) (sectorOf p) :=
  ⟨fun h => h.start hs, fun h => ⟨fun _ => h, fun hn => absurd hs hn⟩⟩

theorem free_inner (hs : ¬ StartsSector p) : Free n log p ↔ ¬ Programmed log p :=
  ⟨fun h => h.inner hs, fun h => ⟨fun hn => absurd hn hs, fun _ => h⟩⟩

/-- **The commands of a block are in order exactly if its place is free.** -/
theorem inOrder_writeLog (hn : n ≤ log.length) (hbase : 0x10000 ≤ p) (halign : p % 1024 = 0)
    (cclk : Nat) (src : List UInt8) : InOrder n log (writeLog cclk p src) ↔ Free n log p := by
  have hend : userFlashEnd = 0x7FFFF := rfl
  unfold writeLog
  by_cases hp : p ≤ userFlashEnd
  · rw [sectorLog_block cclk ⟨hbase, by omega, halign⟩]
    by_cases hs : p = sectorStart (sectorOf p)
    · -- prepare, erase, prepare, copy: the copy goes to an erased sector
      rw [if_pos hs, free_start ⟨hs, hp⟩]
      have hcopy : ¬ Programmed
          (⟨.prepareSectorForWrite (sectorOf p) (sectorOf p) cclk, cmdSuccess⟩ ::
            ⟨.eraseSector (sectorOf p) (sectorOf p) cclk, cmdSuccess⟩ ::
              ⟨.prepareSectorForWrite (sectorOf p) (sectorOf p) cclk, cmdSuccess⟩ :: log) p := by
        rw [programmed_cons rfl rfl]
        exact not_programmed_erase (by simp [IapEvent.erases])
      simp only [InOrder, Proper, List.cons_append, List.nil_append, hcopy, not_false_eq_true,
        true_and, and_true]
      rw [since_cons _ hn, copiesInto_cons rfl]
    · -- prepare, copy
      rw [if_neg hs, free_inner fun h => hs h.1]
      simp only [InOrder, Proper, List.cons_append, List.nil_append, and_true]
      rw [programmed_cons rfl rfl]
  · -- a copy alone
    rw [sectorLog_outside cclk (by omega), free_inner fun h => hp h.2]
    simp only [InOrder, Proper, List.nil_append, and_true]

theorem free_of_copies_below (h : ∀ e ∈ log, ∀ a ∈ e.dst?, a < p) : Free n log p := by
  constructor
  · rintro hs ⟨e, he, a, ha, h1, h2⟩
    have hlt := h e (List.mem_of_mem_take he) a ha
    have hbounds := sectorOf_bounds a
    rw [Nat.le_antisymm h2 h1, ← hs.1] at hbounds
    omega
  · rintro - ⟨e, he, hd⟩
    exact absurd (h e ((List.takeWhile_prefix _).subset he) p hd) (Nat.lt_irrefl p)

theorem dst_writeLog (cclk : Nat) (src : List UInt8) :
    ∀ e ∈ writeLog cclk p src, ∀ a ∈ e.dst?, a = p := by
  intro e he a ha
  unfold writeLog at he
  rcases List.mem_cons.mp he with rfl | he
  · exact (Option.some.inj ha).symm
  · unfold sectorLog at he
    have hnone : e.dst? = none := by
      split at he
      · split at he
        · simp only [List.mem_cons, List.not_mem_nil, or_false] at he
          rcases he with rfl | rfl | rfl <;> rfl
        · rw [List.mem_singleton.mp he]
          rfl
      · cases he
    rw [hnone] at ha
    cases ha

/-- **Consecutive blocks are written in order exactly if the place of the first is free.** -/
theorem inOrder_blocksLog (hn : n ≤ log.length) (hbase : 0x10000 ≤ p) (halign : p % 1024 = 0)
    (hcopies : ∀ e ∈ log, ∀ a ∈ e.dst?, a ≤ p) (bs : List (List UInt8)) :
    InOrder n log (blocksLog (placed 1024 p bs)) ↔ (bs ≠ [] → Free n log p) := by
  induction bs generalizing log p with
  | nil => simp [blocksLog, InOrder]
  | cons b bs ih =>
    have hnext : ∀ e ∈ writeLog succeedingCclk p b ++ log, ∀ a ∈ e.dst?, a < p + 1024 := by
      intro e he a ha
      rcases List.mem_append.mp he with he | he
      · have := dst_writeLog succeedingCclk b e he a ha
        omega
      · have := hcopies e he a ha
        omega
    have hfree : Free n (writeLog succeedingCclk p b ++ log) (p + 1024) :=
      free_of_copies_below hnext
    have hrest : InOrder n (writeLog succeedingCclk p b ++ log)
          (blocksLog (placed 1024 (p + 1024) bs)) ↔
        (bs ≠ [] → Free n (writeLog succeedingCclk p b ++ log) (p + 1024)) :=
      ih (by rw [List.length_append]; omega) (by omega) (by omega)
        fun e he a ha => Nat.le_of_lt (hnext e he a ha)
    rw [placed_cons, blocksLog, inOrder_append, hrest,
      inOrder_writeLog hn hbase halign succeedingCclk b]
    constructor
    · exact fun h _ => h.2
    · exact fun h => ⟨fun _ => hfree, h (List.cons_ne_nil _ _)⟩

theorem dst_blocksLog (bs : List (List UInt8)) :
    ∀ e ∈ blocksLog (placed 1024 p bs), ∀ a ∈ e.dst?, a + 1024 ≤ p + 1024 * bs.length := by
  induction bs generalizing p with
  | nil =>
    intro e he
    cases he
  | cons b bs ih =>
    intro e he a ha
    rw [List.length_cons]
    rw [placed_cons, blocksLog] at he
    rcases List.mem_append.mp he with he | he
    · have := ih e he a ha
      omega
    · have := dst_writeLog succeedingCclk b e he a ha
      omega

/-! A file may have ended within the block at `p`. -/

/-- Whether the block at `flash_pos` holds the rest of an ended file: no, or of one that the upload
in progress ended, or of an older one. -/
inductive Rest where
  | no
  | own
  | older
  deriving DecidableEq

def RestAt (n : Nat) (log : List IapEvent) (p : Nat) : Rest → Prop
  | .no => ∀ e ∈ log, ∀ a ∈ e.dst?, a < p
  | .own => Programmed log p ∧ CopiesInto (since n log) (sectorOf p) (sectorOf p)
  | .older => Programmed log p ∧ since n log = []

variable {rest : Rest}

/-- **A place is free** unless it holds a rest; at the start of a sector an older rest is erased. -/
theorem RestAt.free_iff (h : RestAt n log p rest) :
    Free n log p ↔ rest = .no ∨ rest = .older ∧ StartsSector p := by
  cases rest with
  | no => exact iff_of_true (free_of_copies_below h) (.inl rfl)
  | own =>
    refine iff_of_false (fun hfree => ?_) (by simp)
    by_cases hs : StartsSector p
    · exact hfree.start hs h.2
    · exact hfree.inner hs h.1
  | older =>
    obtain ⟨hprog, hnone⟩ := h
    by_cases hs : StartsSector p
    · refine iff_of_true ((free_start hs).mpr ?_) (.inr ⟨rfl, hs⟩)
      rw [hnone]
      rintro ⟨e, he, -⟩
      cases he
    · exact iff_of_false (fun hfree => hfree.inner hs hprog) (by simp [hs])

theorem RestAt.opened (h : RestAt n log p rest) :
    RestAt log.length log p (if rest = .no then .no else .older) := by
  have hnone : since log.length log = [] := by
    unfold since
    rw [Nat.sub_self, List.take_zero]
  cases rest with
  | no => exact h
  | own => exact ⟨h.1, hnone⟩
  | older => exact ⟨h.1, hnone⟩

/-- Blocks are written from `p` on, and the place after them is `p'`, or it stays at the last. -/
theorem RestAt.written (h : RestAt n log p rest) (hn : n ≤ log.length)
    (hcopies : ∀ e ∈ log, ∀ a ∈ e.dst?, a ≤ p) {bs : List (List UInt8)} {p' : Nat} {stays : Prop}
    [Decidable stays] (hmoves : p + 1024 * bs.length = p' + if stays then 1024 else 0)
    (hne : stays → bs ≠ []) :
    RestAt n (blocksLog (placed 1024 p bs) ++ log) p'
      (if stays then .own else if p' = p then rest else .no) := by
  by_cases hs : stays
  · rw [if_pos hs] at hmoves ⊢
    obtain hnil | ⟨init, b, rfl⟩ := List.eq_nil_or_concat' bs
    · exact absurd hnil (hne hs)
    rw [List.length_append, List.length_singleton] at hmoves
    obtain rfl : p + 1024 * init.length = p' := by omega
    -- the newest command is the copy of the last block
    have hlog : blocksLog (placed 1024 p (init ++ [b])) ++ log =
        ⟨.copyRamToFlash (p + 1024 * init.length) b 1024 succeedingCclk, cmdSuccess⟩ ::
          (sectorLog succeedingCclk (p + 1024 * init.length) ++
            (blocksLog (placed 1024 p init) ++ log)) := by
      rw [placed_append, blocksLog_append, List.append_assoc]
      rfl
    rw [hlog]
    constructor
    · exact programmed_copy ..
    · rw [since_cons _ (by simp only [List.length_append]; omega)]
      exact ⟨_, List.mem_cons_self .., _, rfl, le_rfl, le_rfl⟩
  · rw [if_neg hs] at hmoves ⊢
    cases bs with
    | nil =>
      obtain rfl : p = p' := hmoves
      rw [if_pos rfl]
      exact h
    | cons b bs =>
      have hlen : 0 < (b :: bs).length := Nat.succ_pos _
      rw [if_neg (by omega)]
      intro e he a ha
      rcases List.mem_append.mp he with he | he
      · have := dst_blocksLog (b :: bs) e he a ha
        omega
      · have := hcopies e he a ha
        omega

end Commands

/-! ## The blocks of a pbuf -/

section Blocks

variable {u : Updater Main}

/-- Every command succeeded: the block loop stands where the byte counter says. -/
structure AtCounter (u : Updater Main) : Prop where
  ready : u.stage.flash.Ready
  base : 0x10000 ≤ u.stage.flashPos
  aligned : u.stage.flashPos % 1024 = 0
  counter : (u.stage.flashPos + u.stage.flashCnt : Nat) = 0x10000 + u.curlen

theorem foldl_atCounter (h : AtCounter u) (xs : List UInt8) :
    AtCounter { u with
      curlen := u.curlen + xs.length
      stage := xs.foldl (storeByte succeedingFlash) u.stage } := by
  obtain ⟨hready, hpend, hpos, -⟩ := foldl_ready h.ready xs
  have hlt : u.stage.pend.length < 1024 := by
    rw [Stage.pend_length]
    exact u.stage.flashCnt.isLt
  have hcount := fill_count hlt xs
  rw [← hpend, Stage.pend_length, Stage.pend_length] at hcount
  obtain ⟨-, hbase, haligned, hcounter⟩ := h
  refine ⟨hready, ?_, ?_, ?_⟩
  · dsimp only
    omega
  · dsimp only
    omega
  · dsimp only
    omega

theorem feed_atCounter (h : AtCounter u) (q : Segment) : AtCounter (feed succeedingFlash u q).1 := by
  rcases feed_cases succeedingFlash u q with ⟨k, fw, -, -, -, hf⟩ | ⟨fw, ret, hf, -⟩
  · have hnext := foldl_atCounter (u := { u with fwupdate := fw })
      ⟨h.ready, h.base, h.aligned, h.counter⟩ (q.payload.drop k)
    rw [hf]
    by_cases hle : fw.fileLength ≤ u.curlen + (q.payload.drop k).length
    · obtain ⟨hready, -⟩ := writeRest_ready hnext.ready
      rw [octetStream_done succeedingFlash (u := { u with fwupdate := fw }) hle]
      obtain ⟨-, h1, h2, h3⟩ := hnext
      rw [writeRest_eq] at hready ⊢
      exact ⟨hready, h1, h2, h3⟩
    · rw [octetStream_inprogress succeedingFlash (u := { u with fwupdate := fw })
        (Int.not_le.mp hle)]
      exact hnext
  · rw [hf]
    exact ⟨h.ready, h.base, h.aligned, h.counter⟩

/-- The pbuf has file bytes, and they fill the block or end the file. -/
def WritesBlock (u : Updater Main) (q : Segment) : Prop :=
  ∃ k fl, fileStart u.fwupdate q.mem q.payload.length = some (k, fl) ∧ k < q.payload.length ∧
    (1024 ≤ (u.stage.flashCnt : Nat) + (q.payload.length - k) ∨
      fl ≤ u.curlen + (q.payload.length - k : Nat))

/-- A file has ended within a block: its rest is written, and `flash_pos` stays at it. -/
def EndsInBlock (status : Option FwupdateStatus) (s : Stage Main) : Prop :=
  status = some .done ∧ 0 < (s.flashCnt : Nat)

instance (status : Option FwupdateStatus) (s : Stage Main) : Decidable (EndsInBlock status s) :=
  inferInstanceAs (Decidable (_ ∧ _))

theorem not_endsInBlock_none (s : Stage Main) : ¬ EndsInBlock none s := fun h => by cases h.1

/-- What a call writes: consecutive blocks from `flash_pos` on, which goes behind them, but not
behind the rest of a file. -/
structure WritesFrom (u : Updater Main) (r : Updater Main × FwupdateStatus)
    (bs : List (List UInt8)) : Prop where
  log : r.1.stage.flash.log = blocksLog (placed 1024 u.stage.flashPos bs) ++ u.stage.flash.log
  moves : u.stage.flashPos + 1024 * bs.length =
    r.1.stage.flashPos + if EndsInBlock (some r.2) r.1.stage then 1024 else 0
  rest : EndsInBlock (some r.2) r.1.stage → bs ≠ []

theorem octetStream_places (h : AtCounter u) {xs : List UInt8} (hxs : xs ≠ []) :
    ∃ bs, WritesFrom u (octetStream succeedingFlash u xs) bs ∧
      (bs ≠ [] ↔ 1024 ≤ (u.stage.flashCnt : Nat) + xs.length ∨
        u.fwupdate.fileLength ≤ u.curlen + xs.length) := by
  obtain ⟨hready, hpend, hpos, hlog⟩ := foldl_ready h.ready xs
  have hlt : u.stage.pend.length < 1024 := by
    rw [Stage.pend_length]
    exact u.stage.flashCnt.isLt
  have hcount := fill_count hlt xs
  rw [← hpend, Stage.pend_length, Stage.pend_length] at hcount
  have hne := List.length_pos_iff.mpr hxs
  have hlt' := (xs.foldl (storeByte succeedingFlash) u.stage).flashCnt.isLt
  by_cases hle : u.fwupdate.fileLength ≤ u.curlen + xs.length
  · obtain ⟨-, hrest⟩ := writeRest_ready hready
    rw [octetStream_done succeedingFlash hle]
    rw [hlog] at hrest
    by_cases hcnt : 0 < ((xs.foldl (storeByte succeedingFlash) u.stage).flashCnt : Nat)
    · -- the rest is one more block, at the next position
      have hends : EndsInBlock (some .done)
          (writeRest succeedingFlash (xs.foldl (storeByte succeedingFlash) u.stage)) := by
        rw [writeRest_eq]
        exact ⟨rfl, hcnt⟩
      rw [if_pos hcnt] at hrest
      refine ⟨(fill 1024 u.stage.pend xs).1 ++
        [(xs.foldl (storeByte succeedingFlash) u.stage).dataArr.toList], ⟨?_, ?_, fun _ => ?_⟩,
        iff_of_true (by simp) (.inr hle)⟩
      · rw [placed_append, ← hpos, blocksLog_append, List.append_assoc]
        exact hrest
      · dsimp only
        rw [if_pos hends, writeRest_eq, List.length_append, List.length_singleton]
        dsimp only
        omega
      · simp
    · have hends : ¬ EndsInBlock (some .done)
          (writeRest succeedingFlash (xs.foldl (storeByte succeedingFlash) u.stage)) := by
        rw [writeRest_eq]
        exact fun h => hcnt h.2
      rw [if_neg hcnt] at hrest
      refine ⟨(fill 1024 u.stage.pend xs).1, ⟨hrest, ?_, fun h => absurd h hends⟩,
        iff_of_true ?_ (.inr hle)⟩
      · dsimp only
        rw [if_neg hends, writeRest_eq]
        dsimp only
        omega
      · intro hnil
        rw [hnil, List.length_nil] at hcount
        omega
  · have hends : ¬ EndsInBlock (some .inprogress)
        (xs.foldl (storeByte succeedingFlash) u.stage) := fun h => by cases h.1
    rw [octetStream_inprogress succeedingFlash (Int.not_le.mp hle)]
    refine ⟨(fill 1024 u.stage.pend xs).1, ⟨hlog, ?_, fun h => absurd h hends⟩, ?_⟩
    · dsimp only
      rw [if_neg hends]
      omega
    · rw [or_iff_left hle, ← List.length_pos_iff]
      omega

/-- One pbuf writes consecutive blocks, at least one exactly if it fills the block or ends the
file. -/
theorem feed_places (h : AtCounter u) (q : Segment) :
    ∃ bs, WritesFrom u (feed succeedingFlash u q) bs ∧ (bs ≠ [] ↔ WritesBlock u q) := by
  rcases fileStart_cases u.fwupdate q.mem q.payload.length with ⟨k, fl, hs, hk⟩ | hnone
  · obtain ⟨fw, -, rfl, hm⟩ := machine_file succeedingFlash hs hk
    rw [q.mem_take] at hm
    have hne : q.payload.drop k ≠ [] := by simp [hk]
    obtain ⟨bs, hwrites, hbs⟩ := octetStream_places
      (u := { u with fwupdate := fw }) ⟨h.ready, h.base, h.aligned, h.counter⟩ hne
    rw [List.length_drop] at hbs
    refine ⟨bs, ?_, hbs.trans ⟨fun hw => ⟨k, _, hs, hk, hw⟩, ?_⟩⟩
    · unfold feed
      rw [hm]
      exact ⟨hwrites.log, hwrites.moves, hwrites.rest⟩
    · rintro ⟨k', fl', hs', -, hw⟩
      obtain ⟨rfl, rfl⟩ := Prod.mk.injEq .. ▸ Option.some.inj (hs.symm.trans hs')
      exact hw
  · obtain ⟨fw, ret, hm, hret, -⟩ := machine_no_file succeedingFlash hnone
    have hends : ¬ EndsInBlock (some ret) u.stage := fun h => hret (Option.some.inj h.1)
    refine ⟨[], ?_, iff_of_false (fun hn => hn rfl) ?_⟩
    · unfold feed
      rw [hm]
      exact ⟨rfl, by rw [if_neg hends]; rfl, fun h => absurd h hends⟩
    · rintro ⟨k, fl, hs, hk, -⟩
      exact absurd hk (Nat.not_lt.mpr (hnone k fl hs))

end Blocks

/-! ## Runs -/

/-- The statics; how many commands had been issued when the upload in progress began; and what the
block at `flash_pos` holds. -/
structure Tracked where
  post : Post Main
  mark : Nat := 0
  rest : Rest := .no

def Tracked.log (t : Tracked) : List IapEvent := t.post.upd.stage.flash.log

/-- One call. An accepted begin is the beginning of an upload; a rest stays until `flash_pos`
moves. -/
def trackedStep (t : Tracked) (e : Event) : Tracked × Answer :=
  let r := step succeedingFlash t.post e
  match e with
  | .postBegin .. =>
    if r.2.err = .ok then
      ({ post := r.1, mark := t.log.length, rest := if t.rest = .no then .no else .older }, r.2)
    else ({ t with post := r.1 }, r.2)
  | .receiveData .. =>
    ({ t with
        post := r.1
        rest :=
          if EndsInBlock r.2.status r.1.upd.stage then .own
          else if r.1.upd.stage.flashPos = t.post.upd.stage.flashPos then t.rest
          else .no }, r.2)
  | .postFinished _ => ({ t with post := r.1 }, r.2)

def Tracked.powerOn : Tracked := { post := Loader.powerOn {} }

/-- **Erase before write**, for the commands of one call: no copy goes to a block that has been
copied to since its sector was erased, and no erase hits a sector the upload in progress has copied
into. -/
def Disciplined (t : Tracked) (e : Event) : Prop :=
  ∃ new, (trackedStep t e).1.log = new ++ t.log ∧ InOrder t.mark t.log new

/-- If a pbuf of the current connection writes a block, `flash_pos` is not at the rest of an ended
file, or this is the rest of an older upload at the start of a sector. -/
def SparesRest (t : Tracked) : Event → Prop
  | .receiveData c p => t.post.jumped = false → t.post.currentConnection = some c →
    WritesBlock t.post.upd p.head →
      t.rest = .no ∨ t.rest = .older ∧ StartsSector t.post.upd.stage.flashPos
  | _ => True

/-- The block loop stands where the counter says, no copy has gone behind `flash_pos`, and a rest
there is known. -/
structure Tracked.Inv (t : Tracked) : Prop where
  counter : AtCounter t.post.upd
  copies : ∀ e ∈ t.log, ∀ a ∈ e.dst?, a ≤ t.post.upd.stage.flashPos
  mark : t.mark ≤ t.log.length
  rest : RestAt t.mark t.log t.post.upd.stage.flashPos t.rest

variable {t : Tracked}

theorem Tracked.Inv.of_stage {t' : Tracked} (ht : t.Inv)
    (hstage : t'.post.upd.stage = t.post.upd.stage)
    (hcurlen : t'.post.upd.curlen = t.post.upd.curlen) (hmark : t'.mark ≤ t.log.length)
    (hrest : RestAt t'.mark t.log t.post.upd.stage.flashPos t'.rest) : t'.Inv := by
  obtain ⟨⟨hready, hbase, haligned, hcounter⟩, hcopies, -, -⟩ := ht
  have hlog : t'.log = t.log := congrArg (fun s : Stage Main => s.flash.log) hstage
  refine ⟨⟨?_, ?_, ?_, ?_⟩, ?_, ?_, ?_⟩
  · rwa [hstage]
  · rwa [hstage]
  · rwa [hstage]
  · rwa [hstage, hcurlen]
  · rwa [hlog, hstage]
  · rwa [hlog]
  · rwa [hlog, hstage]

theorem Tracked.Inv.idle {t' : Tracked} (ht : t.Inv) (hupd : t'.post.upd = t.post.upd)
    (hmark : t'.mark = t.mark) (hrest : t'.rest = t.rest) : t'.Inv := by
  refine ht.of_stage (by rw [hupd]) (by rw [hupd]) ?_ ?_
  · rw [hmark]
    exact ht.mark
  · rw [hmark, hrest]
    exact ht.rest

/-- **One call** is disciplined exactly if it spares a rest, and keeps the invariant. -/
theorem tracked_step (ht : t.Inv) (e : Event) :
    (trackedStep t e).1.Inv ∧ (Disciplined t e ↔ SparesRest t e) := by
  have hcall := step_call succeedingFlash t.post e
  unfold Disciplined trackedStep
  generalize step succeedingFlash t.post e = r at hcall ⊢
  cases hcall with
  | @fed c p s' hj hc hupd hc' hj' hreboot =>
    obtain ⟨bs, ⟨hlog, hmoves, hne⟩, hbs⟩ := feed_places ht.counter p.head
    have hcounter := feed_atCounter ht.counter p.head
    rw [← hupd] at hlog hmoves hne hcounter
    have hpos : t.post.upd.stage.flashPos + 1024 * bs.length ≤ s'.upd.stage.flashPos + 1024 ∧
        t.post.upd.stage.flashPos ≤ s'.upd.stage.flashPos := by
      by_cases hends : EndsInBlock (some (feed succeedingFlash t.post.upd p.head).2) s'.upd.stage
      · have := List.length_pos_iff.mpr (hne hends)
        rw [if_pos hends] at hmoves
        omega
      · rw [if_neg hends] at hmoves
        omega
    have hin := inOrder_blocksLog ht.mark ht.counter.base ht.counter.aligned ht.copies bs
    rw [ht.rest.free_iff] at hin
    refine ⟨⟨hcounter, fun e he a ha => ?_, ?_, ?_⟩, ?_⟩
    · rw [Tracked.log, hlog] at he
      rcases List.mem_append.mp he with he | he
      · have hdst := dst_blocksLog bs e he a ha
        dsimp only
        omega
      · exact (ht.copies e he a ha).trans hpos.2
    · have hle := ht.mark
      show t.mark ≤ s'.upd.stage.flash.log.length
      rw [hlog, List.length_append]
      unfold Tracked.log at hle
      omega
    · show RestAt t.mark s'.upd.stage.flash.log s'.upd.stage.flashPos _
      rw [hlog]
      exact ht.rest.written ht.mark ht.copies hmoves hne
    · constructor
      · rintro ⟨new, hnew, hord⟩ - - hw
        rw [Tracked.log, hlog] at hnew
        rw [← List.append_cancel_right hnew] at hord
        exact hin.mp hord (hbs.mpr hw)
      · intro hspares
        exact ⟨_, hlog, hin.mpr fun hnil => hspares hj hc (hbs.mp hnil)⟩
  | off hj =>
    cases e with
    | postBegin c uri n => exact ⟨ht, iff_of_true ⟨[], rfl, trivial⟩ trivial⟩
    | receiveData c p =>
      refine ⟨ht.idle rfl rfl ?_, iff_of_true ⟨[], rfl, trivial⟩ fun hj' => ?_⟩
      · dsimp only
        rw [if_neg (not_endsInBlock_none _), if_pos rfl]
      · rw [hj] at hj'
        cases hj'
    | postFinished c => exact ⟨ht, iff_of_true ⟨[], rfl, trivial⟩ trivial⟩
  | accepted hj ha =>
    refine ⟨ht.of_stage rfl rfl le_rfl ht.rest.opened, iff_of_true ⟨[], rfl, trivial⟩ trivial⟩
  | refused hj ha => exact ⟨ht, iff_of_true ⟨[], rfl, trivial⟩ trivial⟩
  | unknown hj hc =>
    refine ⟨ht.idle rfl rfl ?_, iff_of_true ⟨[], rfl, trivial⟩ fun _ hc' => absurd hc' hc⟩
    dsimp only
    rw [if_neg (not_endsInBlock_none _), if_pos rfl]
  | jumps hj hr => exact ⟨ht.idle rfl rfl rfl, iff_of_true ⟨[], rfl, trivial⟩ trivial⟩
  | closes hj hr hc => exact ⟨ht.idle rfl rfl rfl, iff_of_true ⟨[], rfl, trivial⟩ trivial⟩
  | ignores hj hr hc => exact ⟨ht.idle rfl rfl rfl, iff_of_true ⟨[], rfl, trivial⟩ trivial⟩

theorem tracked_powerOn : Tracked.powerOn.Inv := by
  refine ⟨⟨Main.ready_init, le_rfl, rfl, rfl⟩, ?_, le_rfl, ?_⟩
  · intro e he
    cases he
  · intro e he
    cases he

theorem tracked_run (es : List Event) : (final trackedStep .powerOn es).Inv := by
  have hstep : ∀ (t : Tracked) (e : Event), t.Inv → (trackedStep t e).1.Inv :=
    fun _ e ht => (tracked_step ht e).1
  exact final_inv_of_step hstep es tracked_powerOn

/-- **When erase comes before write.** For every run of calls from power-on, every command
succeeding: each call is disciplined if and only if no call writes to the block that holds the rest
of an ended file, but at a sector start to that of an older upload. -/
theorem erase_before_write_iff (es : List Event) :
    Along trackedStep Disciplined .powerOn es ↔ Along trackedStep SparesRest .powerOn es :=
  along_congr (I := Tracked.Inv) (fun _ e ht _ => (tracked_step ht e).1)
    (fun _ e ht => (tracked_step ht e).2) tracked_powerOn es

def Pbuf.openingZeros : Pbuf :=
  .single (Preamble.plain.bytes ++ List.replicate 61 0) (by decide)

/-- A POST header inside a body, with a tag and one file byte behind it. -/
def Pbuf.embedded : Pbuf :=
  .single (CStr.bytes
    "POST /uploadContent-Length:9\r\n\r\napplication/octet-stream\r\n\r\n!") (by decide)

/-- Client 1 stops after 61 bytes. Client 2 takes over and ends the file with its first byte; what
is left of its body looks like a header. -/
def endedEarly : List Event :=
  [.postBegin 1 (bytes "/upload") 200, .receiveData 1 .openingZeros,
    .postBegin 2 (bytes "/upload") 109, .receiveData 2 (.opening 66)]

/-- The rest of client 2's body ends the file again: sector 16 is erased, into which its upload has
written. -/
theorem erases_own_block :
    ¬ Along trackedStep Disciplined .powerOn (endedEarly ++ [.receiveData 2 .embedded]) := by
  intro h
  obtain ⟨-, hlast, -⟩ := (along_append _ _ _).mp h
  have hinv := tracked_run endedEarly
  have hfile : fileStart (final trackedStep .powerOn endedEarly).post.upd.fwupdate
      Pbuf.embedded.head.mem Pbuf.embedded.head.payload.length = some (60, -19) := by
    decide +kernel
  have hpast : (60 : Nat) < Pbuf.embedded.head.payload.length ∧
      (-19 : Int) ≤ (final trackedStep .powerOn endedEarly).post.upd.curlen +
        (Pbuf.embedded.head.payload.length - 60 : Nat) := by decide +kernel
  have hwrites : WritesBlock (final trackedStep .powerOn endedEarly).post.upd
      Pbuf.embedded.head := by
    refine ⟨60, -19, hfile, hpast.1, Or.inr ?_⟩
    exact hpast.2
  have hj : (final trackedStep .powerOn endedEarly).post.jumped = false := by decide +kernel
  have hc : (final trackedStep .powerOn endedEarly).post.currentConnection = some 2 := by
    decide +kernel
  have hown : (final trackedStep .powerOn endedEarly).rest = .own := by decide +kernel
  have hspares := (tracked_step hinv (.receiveData 2 .embedded)).2.mp hlast hj hc hwrites
  rw [hown] at hspares
  simp at hspares

end AdcUdpStream.Loader
