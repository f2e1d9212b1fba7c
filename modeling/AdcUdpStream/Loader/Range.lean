import AdcUdpStream.Loader.Entries

/-!
# Copies in range

`flash_pos` is not compared with the end of user flash, so the only bound on the
copies is the number of bytes streamed. While these fit, every `COPY` is in
range and follows a successful prepare of its sector, whatever the IAP commands
return (`post_inRange`); and where no call of `write_flash` follows a failed one,
what stays in range fits (`fits_of_inFlash`). A complete upload of too many bytes
is answered `DONE` (`oversize_refused_iff`).
-/

namespace AdcUdpStream.Loader

open Blocks CStr Steps

variable (b : Board)

/-- The file bytes of the pbuf fit user flash behind those taken before: their full blocks, and
the rest where the file ends. -/
def FitsUserFlash {F : Type} (u : Updater F) (q : Segment) : Prop :=
  ∀ k fl, fileStart u.fwupdate q.mem q.payload.length = some (k, fl) → k < q.payload.length →
    u.curlen + (q.payload.length - k : Nat) < 0x70000 + 1024 ∧
      (fl ≤ u.curlen + (q.payload.length - k : Nat) →
        u.curlen + (q.payload.length - k : Nat) ≤ 0x70000)

/-- A pbuf that ends the file ends one of at most 0x70000 bytes. -/
def EndsFittingFile (u : Updater Main) (q : Segment) : Prop :=
  (feed (writeFlash b) u q).2 = .done →
    ∃ k fl, fileStart u.fwupdate q.mem q.payload.length = some (k, fl) ∧ fl ≤ 0x70000

/-- One POST from power-on: every copy is in range and prepared, and no larger file ends. -/
structure StaysInFlash (c : Conn) (uri : List UInt8) (n : Int) (ps : List Pbuf) : Prop where
  copies : CopiesGuarded
    (final (step (writeFlash b)) (powerOn {}) (postEvents c uri n ps)).upd.stage.flash.log
  ends : Along (feed (writeFlash b)) (EndsFittingFile b) ((powerOn {}).opened c n).upd
    (ps.map Pbuf.head)

/-- The driver that does nothing: a run with it counts the bytes. -/
def noFlash : WriteFlash Unit := fun _ _ _ _ => (cmdSuccess, ())

theorem fits_alike {F G : Type} (wf : WriteFlash F) (wg : WriteFlash G) {u : Updater F}
    {v : Updater G} (h : Alike u v) (qs : List Segment) :
    Along (feed wf) FitsUserFlash u qs ↔ Along (feed wg) FitsUserFlash v qs := by
  have hstep : ∀ (u : Updater F) (v : Updater G) (q : Segment), Alike u v →
      Alike (feed wf u q).1 (feed wg v q).1 := fun u v q h => (machine_alike wf wg h).1
  have hprop : ∀ (u : Updater F) (v : Updater G) (q : Segment), Alike u v →
      (FitsUserFlash u q ↔ FitsUserFlash v q) := by
    intro u v q h
    unfold FitsUserFlash
    rw [h.fwupdate, h.curlen]
  exact along_sim hstep hprop h qs

/-! ## What fits stays in range -/

/-- The full blocks of the bytes taken fit user flash, and so do the blocks written for them. -/
structure UpdaterInRange (u : Updater Main) : Prop where
  curlen : u.curlen < 0x70000 + 1024
  stage : u.stage.InRange u.curlen

theorem octetStream_inRange {u : Updater Main} (h : UpdaterInRange u) (xs : List UInt8)
    (hfull : u.curlen + xs.length < 0x70000 + 1024)
    (hend : u.fwupdate.fileLength ≤ u.curlen + xs.length → u.curlen + xs.length ≤ 0x70000) :
    UpdaterInRange (octetStream (writeFlash b) u xs).1 := by
  have hfold := foldl_inRange (b := b) h.stage xs hfull
  by_cases hle : u.fwupdate.fileLength ≤ u.curlen + xs.length
  · rw [octetStream_done (writeFlash b) hle]
    exact ⟨hfull, writeRest_inRange hfold (hend hle)⟩
  · rw [octetStream_inprogress (writeFlash b) (Int.not_le.mp hle)]
    exact ⟨hfull, hfold⟩

/-- **One pbuf that fits keeps the copies in range**, for any result codes. -/
theorem feed_inRange {u : Updater Main} {q : Segment} (h : UpdaterInRange u)
    (hfit : FitsUserFlash u q) :
    UpdaterInRange (feed (writeFlash b) u q).1 ∧ EndsFittingFile b u q := by
  rcases feed_cases (writeFlash b) u q with ⟨k, fw, hk, hs, -, hf⟩ | ⟨fw, ret, hf, hret, -⟩
  · obtain ⟨hfull, hend⟩ := hfit k fw.fileLength hs hk
    rw [← List.length_drop] at hfull hend
    refine ⟨?_, fun hd => ⟨k, fw.fileLength, hs, ?_⟩⟩
    · rw [hf]
      exact octetStream_inRange b (u := { u with fwupdate := fw }) ⟨h.curlen, h.stage⟩ _ hfull hend
    · by_contra hlt
      rw [hf, octetStream_inprogress (writeFlash b) (by dsimp only; omega)] at hd
      cases hd
  · rw [hf]
    refine ⟨⟨h.curlen, h.stage⟩, fun hd => ?_⟩
    rw [hf] at hd
    exact absurd hd hret

theorem Stage.init_inRange : Stage.init.InRange 0 where
  base := Nat.le_refl _
  aligned := rfl
  taken := Int.le_refl _
  guarded := Main.guarded_init

/-- **One POST whose file bytes fit**, any body in any pbufs, any result codes, stays in flash. -/
theorem post_inRange {c : Conn} {uri : List UInt8} {n : Int} {ps : List Pbuf}
    (hu : startsWith uri (bytes "/upload"))
    (hfit : Along (feed (writeFlash b)) FitsUserFlash ((powerOn {}).opened c n).upd
      (ps.map Pbuf.head)) : StaysInFlash b c uri n ps := by
  have hstart : UpdaterInRange ((powerOn {}).opened c n).upd :=
    ⟨show (0 : Int) < 0x70000 + 1024 by decide, Stage.init_inRange⟩
  obtain ⟨hupd, -, -⟩ := post_run (writeFlash b) (c := c) (n := n) (f := {}) ps hu
  constructor
  · rw [hupd]
    exact (final_inv (I := UpdaterInRange) (fun u q h hq => (feed_inRange b h hq).1) hstart
      hfit).stage.guarded.copies
  · exact along_of_inv (I := UpdaterInRange) (fun u q h hq => (feed_inRange b h hq).1)
      (fun u q h hq => (feed_inRange b h hq).2) hstart hfit

/-! ## What stays in range fits -/

theorem copiesGuarded_of_append {log log' : List IapEvent} (h : CopiesGuarded (log' ++ log)) :
    CopiesGuarded log := by
  induction log' with
  | nil => exact h
  | cons e log' ih =>
    obtain ⟨cmd, res⟩ := e
    cases cmd with
    | prepareSectorForWrite _ _ _ => exact ih h
    | eraseSector _ _ _ => exact ih h
    | copyRamToFlash _ _ _ _ => exact ih h.2.2

theorem userBlock_of_copies {ws : List (Nat × List UInt8)} {log : List IapEvent}
    (h : CopiesGuarded (blocksLog ws ++ log)) : ∀ w ∈ ws, UserBlock w.1 := by
  induction ws generalizing log with
  | nil => simp
  | cons w ws ih =>
    rw [blocksLog, List.append_assoc] at h
    intro v hv
    rcases List.mem_cons.mp hv with rfl | hv
    · exact (copiesGuarded_of_append h).1
    · exact ih h v hv

/-- No call of `write_flash` has followed a failed one, and every copy was in range. -/
structure InFlash (g : Main × List Entry) : Prop where
  calls : NoneAfterFailure g.2
  copies : CopiesGuarded g.1.log

/-- Every call of `write_flash` succeeded, if there was one. -/
structure Resting (g : Main × List Entry) (first : Prop) : Prop where
  flashAddress : g.1.flashAddress = 0
  byteCtr : g.1.byteCtr = 0
  codes : AllSucceeded g.2
  result : first ∨ g.1.resultTable = cmdSuccess

/-- Every call succeeded: the block loop stands where the byte counter says. -/
structure AtRest (s : Stage (Main × List Entry)) (taken : Int) : Prop where
  calls : Resting s.flash (s.flashPos = 0x10000)
  base : 0x10000 ≤ s.flashPos
  top : s.flashPos ≤ 0x80000
  aligned : s.flashPos % 1024 = 0
  counter : (s.flashPos + s.flashCnt : Nat) = 0x10000 + taken

/-- The last call failed, on a block of user flash. What was taken since is less than a block. -/
structure AfterFailure (s : Stage (Main × List Entry)) (taken : Int) : Prop where
  codes : ¬ AllSucceeded s.flash.2
  block : s.flashPos + 1024 ≤ 0x80000
  counter : 0x10000 + taken ≤ (s.flashPos + 1024 + s.flashCnt : Nat)

/-- Where the block loop is behind `taken` file bytes. -/
def Located (s : Stage (Main × List Entry)) (taken : Int) : Prop :=
  InFlash s.flash → AtRest s taken ∨ AfterFailure s taken

section Located

variable {b : Board} {s : Stage (Main × List Entry)} {taken : Int}

theorem inFlash_of_noted {g : Main × List Entry} {dst n : Nat} {src : List UInt8}
    (h : InFlash (noted b g dst src n).2) : InFlash g ∧ AllSucceeded g.2 := by
  obtain ⟨es, hlog⟩ := writeFlash_log b g.1 dst src n
  have hcopies : CopiesGuarded (es ++ g.1.log) := hlog ▸ h.copies
  have hcodes : AllSucceeded g.2 := h.calls
  exact ⟨⟨hcodes.noneAfter, copiesGuarded_of_append hcopies⟩, hcodes⟩

/-- **A call from rest that stays in flash** is for a block of user flash: behind the last sector
nothing is prepared, and the copy is issued because the result cell still holds the success of the
call before. -/
theorem noted_atRest (h : AtRest s taken) (src : List UInt8) {n : Nat} (hn : n = flashBufSize)
    (hg : InFlash (noted b s.flash s.flashPos src n).2) :
    s.flashPos + 1024 ≤ 0x80000 ∧
      ((noted b s.flash s.flashPos src n).1 = cmdSuccess →
        ∀ first, Resting (noted b s.flash s.flashPos src n).2 first) := by
  obtain ⟨⟨haddr, hctr, hcodes, hresult⟩, hbase, htop, halign, -⟩ := h
  have hcopies := hg.copies
  clear hg
  generalize s.flash = g at haddr hctr hcodes hresult hcopies ⊢
  obtain ⟨m, es⟩ := g
  dsimp only [noted] at haddr hctr hcodes hresult hcopies ⊢
  have hfull : (m.accumulate s.flashPos src n).byteCtr = flashBufSize := by
    simp only [Main.accumulate, hctr, hn]
    decide
  have hdst : (m.accumulate s.flashPos src n).flashAddress = s.flashPos := if_pos haddr
  obtain ⟨m₁, m₂, h₁, h₂, hcases⟩ := program_cases b (m.accumulate s.flashPos src n)
  have hdst₁ : m₁.flashAddress = s.flashPos := by
    rw [h₁, findErasePrepareSector_flashAddress, hdst]
  have hcopy : CopiesGuarded m₂.log → s.flashPos + 1024 ≤ 0x80000 := by
    rw [h₂]
    intro hc
    have hblock : UserBlock m₁.flashAddress := hc.1
    rw [hdst₁] at hblock
    exact hblock.2.1
  rw [writeFlash_eq, if_pos hfull] at hcopies ⊢
  rcases hcases with ⟨h1, hprog⟩ | ⟨-, h2, hprog⟩ | ⟨-, h2, hprog⟩
  · rw [hprog] at hcopies ⊢
    refine ⟨?_, fun hok => absurd hok h1⟩
    by_contra hlt
    have hend : s.flashPos = 0x80000 := by omega
    have hnone : userSectors.find? (fun i => decide (0x80000 < sectorEnd i)) = none := by decide
    have hsame : m₁.resultTable = m.resultTable := by
      rw [h₁, hdst, hend, findErasePrepareSector, hnone]
      rfl
    rw [hsame] at h1
    exact h1 (hresult.resolve_left (by omega))
  · rw [hprog] at hcopies ⊢
    exact ⟨hcopy hcopies, fun hok => absurd hok h2⟩
  · rw [hprog] at hcopies ⊢
    refine ⟨hcopy hcopies, fun _ first => ⟨rfl, rfl, ?_, .inr h2⟩⟩
    exact List.forall_mem_cons.mpr ⟨rfl, hcodes⟩

theorem storeByte_located (h : Located s taken) (x : UInt8) :
    Located (storeByte (noted b) s x) (taken + 1) := by
  intro hg
  by_cases hlt : (s.flashCnt : Nat) + 1 < 1024
  · obtain ⟨-, hcnt, hpos, hflash⟩ := storeByte_lt (noted b) x hlt
    rw [hflash] at hg
    rcases h hg with ⟨h1, h2, h3, h4, h5⟩ | ⟨h1, h2, h3⟩
    · exact .inl ⟨by rwa [hflash, hpos], by omega, by omega, by omega, by omega⟩
    · exact .inr ⟨by rwa [hflash], by omega, by omega⟩
  · obtain ⟨hcnt, hpos, hflash⟩ := storeByte_full (noted b) x hlt
    have hcap := s.flashCnt.isLt
    rw [hflash] at hg
    obtain ⟨hold, hcodes⟩ := inFlash_of_noted hg
    rcases h hold with hrest | hfail
    · obtain ⟨hblock, hresting⟩ := noted_atRest hrest _ rfl hg
      obtain ⟨-, h2, h3, h4, h5⟩ := hrest
      by_cases hok : (noted b s.flash s.flashPos (s.pend ++ [x]) 1024).1 = cmdSuccess
      · rw [if_pos hok] at hpos
        refine .inl ⟨?_, by omega, by omega, by omega, by omega⟩
        rw [hflash]
        exact hresting hok _
      · rw [if_neg hok] at hpos
        refine .inr ⟨?_, by omega, by omega⟩
        rw [hflash, noted_succeeded]
        exact fun hall => hok hall.1
    · exact absurd hcodes hfail.codes

theorem foldl_located (h : Located s taken) (xs : List UInt8) :
    Located (xs.foldl (storeByte (noted b)) s) (taken + xs.length) := by
  induction xs generalizing s taken with
  | nil => simpa using h
  | cons x xs ih =>
    have := ih (storeByte_located (b := b) h x)
    rw [List.foldl_cons, List.length_cons, Int.natCast_add]
    rwa [show taken + ((xs.length : Int) + (1 : Nat)) = taken + 1 + xs.length by omega]

theorem Located.le (h : Located s taken) (hg : InFlash s.flash) :
    taken ≤ 0x70000 + (s.flashCnt : Nat) := by
  rcases h hg with hrest | hfail
  · have htop := hrest.top
    have hcounter := hrest.counter
    omega
  · have hblock := hfail.block
    have hcounter := hfail.counter
    omega

theorem writeRest_located (h : Located s taken) :
    Located (writeRest (noted b) s) taken ∧
      (InFlash (writeRest (noted b) s).flash → taken ≤ 0x70000) := by
  have hcap := s.flashCnt.isLt
  by_cases hpos : 0 < (s.flashCnt : Nat)
  · have hrest : writeRest (noted b) s =
        { s with flash := (noted b s.flash s.flashPos s.dataArr.toList 1024).2 } := if_pos hpos
    rw [hrest]
    have hat : InFlash (noted b s.flash s.flashPos s.dataArr.toList 1024).2 → AtRest s taken := by
      intro hg
      obtain ⟨hold, hcodes⟩ := inFlash_of_noted hg
      exact (h hold).resolve_right fun hfail => hfail.codes hcodes
    constructor
    · intro hg
      dsimp only at hg
      obtain ⟨hblock, hresting⟩ := noted_atRest (hat hg) _ rfl hg
      obtain ⟨-, h2, h3, h4, h5⟩ := hat hg
      by_cases hok : (noted b s.flash s.flashPos s.dataArr.toList 1024).1 = cmdSuccess
      · exact .inl ⟨hresting hok _, h2, h3, h4, h5⟩
      · refine .inr ⟨?_, hblock, ?_⟩
        · rw [noted_succeeded]
          exact fun hall => hok hall.1
        · dsimp only
          omega
    · intro hg
      obtain ⟨hblock, -⟩ := noted_atRest (hat hg) _ rfl hg
      have hcounter := (hat hg).counter
      omega
  · have hrest : writeRest (noted b) s = s := if_neg hpos
    rw [hrest]
    refine ⟨h, fun hg => ?_⟩
    have hle := h.le hg
    omega

end Located

section Feed

variable {b : Board} {u : Updater (Main × List Entry)}

/-- **The bytes of a stream that stays in flash fit.** -/
theorem octetStream_located (h : Located u.stage u.curlen) (xs : List UInt8) :
    Located (octetStream (noted b) u xs).1.stage (octetStream (noted b) u xs).1.curlen ∧
      (InFlash (octetStream (noted b) u xs).1.stage.flash →
        u.curlen + xs.length < 0x70000 + 1024 ∧
          (u.fwupdate.fileLength ≤ u.curlen + xs.length → u.curlen + xs.length ≤ 0x70000)) := by
  have hfold := foldl_located (b := b) h xs
  by_cases hle : u.fwupdate.fileLength ≤ u.curlen + xs.length
  · obtain ⟨hrest, hend⟩ := writeRest_located (b := b) hfold
    rw [octetStream_done (noted b) hle]
    refine ⟨hrest, fun hg => ?_⟩
    have := hend hg
    exact ⟨by omega, fun _ => this⟩
  · rw [octetStream_inprogress (noted b) (Int.not_le.mp hle)]
    refine ⟨hfold, fun hg => ⟨?_, fun hle' => absurd hle' hle⟩⟩
    have htaken := hfold.le hg
    have hcap := (xs.foldl (storeByte (noted b)) u.stage).flashCnt.isLt
    omega

theorem feed_located (h : Located u.stage u.curlen) (q : Segment) :
    Located (feed (noted b) u q).1.stage (feed (noted b) u q).1.curlen ∧
      (InFlash (feed (noted b) u q).1.stage.flash → FitsUserFlash u q) := by
  rcases fileStart_cases u.fwupdate q.mem q.payload.length with ⟨k, fl, hs, hk⟩ | hnone
  · obtain ⟨fw, -, rfl, hm⟩ := machine_file (noted b) hs hk
    rw [q.mem_take] at hm
    obtain ⟨hnext, hfits⟩ := octetStream_located (b := b) (u := { u with fwupdate := fw }) h
      (q.payload.drop k)
    rw [List.length_drop] at hfits
    unfold feed
    rw [hm]
    refine ⟨hnext, fun hg k' fl' hs' _ => ?_⟩
    obtain ⟨rfl, rfl⟩ := Prod.mk.injEq .. ▸ Option.some.inj (hs.symm.trans hs')
    exact hfits hg
  · obtain ⟨fw, ret, hm, -⟩ := machine_no_file (noted b) hnone
    unfold feed
    rw [hm]
    exact ⟨h, fun _ k fl hs hk => absurd hk (Nat.not_lt.mpr (hnone k fl hs))⟩

theorem inFlash_of_feed {q : Segment} (h : InFlash (feed (noted b) u q).1.stage.flash) :
    InFlash u.stage.flash := by
  have hkept : KeptByWrites (noted b) fun g => ¬ InFlash g :=
    fun g dst src _ hg hnext => hg (inFlash_of_noted hnext).1
  by_contra hg
  refine absurd h ?_
  rcases feed_cases (noted b) u q with ⟨k, fw, -, -, -, hf⟩ | ⟨fw, ret, hf, -⟩
  · rw [hf]
    exact octetStream_kept hkept (u := { u with fwupdate := fw }) _ hg
  · rw [hf]
    exact hg

/-- **What stays in flash fits**, whatever the commands return. -/
theorem fits_of_inFlash (h : Located u.stage u.curlen) {qs : List Segment}
    (hg : InFlash (final (feed (noted b)) u qs).stage.flash) :
    Along (feed (noted b)) FitsUserFlash u qs := by
  induction qs generalizing u with
  | nil => trivial
  | cons q qs ih =>
    obtain ⟨hnext, hfits⟩ := feed_located (b := b) h q
    rw [final_cons] at hg
    have hnow : InFlash (feed (noted b) u q).1.stage.flash := by
      by_contra hn
      exact final_inv_of_step (I := fun v : Updater (Main × List Entry) => ¬ InFlash v.stage.flash)
        (fun v q hv hq => hv (inFlash_of_feed hq)) qs hn hg
    exact ⟨hfits hnow, ih hnext hg⟩

end Feed

theorem located_opened (c : Conn) (n : Int) :
    Located ((powerOn (({}, []) : Main × List Entry)).opened c n).upd.stage 0 :=
  fun _ => .inl ⟨⟨rfl, rfl, List.forall_mem_nil _, .inl rfl⟩, Nat.le_refl 0x10000,
    show 0x10000 ≤ 0x80000 by decide, show 0x10000 % 1024 = 0 by decide, rfl⟩

/-- **When one POST from power-on stays in flash**, on a board on which no call of `write_flash`
follows a failed one: exactly when the file bytes of each pbuf fit behind those taken before. -/
theorem staysInFlash_iff {c : Conn} {uri : List UInt8} {n : Int} {ps : List Pbuf}
    (hu : startsWith uri (bytes "/upload"))
    (hcalls : NoneAfterFailure (entries b (powerOn {}) (postEvents c uri n ps))) :
    StaysInFlash b c uri n ps ↔
      Along (feed noFlash) FitsUserFlash ((powerOn ()).opened c n).upd (ps.map Pbuf.head) := by
  constructor
  · intro h
    obtain ⟨hupd, -, -⟩ := post_run (noted b) (c := c) (n := n) (f := ({}, [])) ps hu
    have hcopies := h.copies
    rw [← noted_run] at hcopies
    unfold entries at hcalls
    have hstart : (powerOn ({} : Main)).mapFlash (fun m => (m, ([] : List Entry))) =
      powerOn ({}, []) := rfl
    rw [hstart] at hcopies hcalls
    have hg : InFlash (final (step (noted b)) (powerOn ({}, []))
        (postEvents c uri n ps)).upd.stage.flash := ⟨hcalls, hcopies⟩
    rw [hupd] at hg
    exact (fits_alike (noted b) noFlash ⟨rfl, rfl⟩ _).mp (fits_of_inFlash (located_opened c n) hg)
  · intro h
    exact post_inRange b hu ((fits_alike (writeFlash b) noFlash ⟨rfl, rfl⟩ _).mpr h)

/-! ## Complete uploads -/

/-- The file part of an upload that does not fit is refused, and no copy is out of range. -/
structure RefusesOversize (U : Upload) (es : List Event) : Prop where
  copies : CopiesGuarded (final (step (writeFlash b)) (powerOn {}) es).upd.stage.flash.log
  refused : 0x70000 < U.data.length → .done ∉ statuses (outs (step (writeFlash b)) (powerOn {}) es)

theorem upload_done {U : Upload} {c : Conn} {uri : List UInt8} (hU : U.Unchained)
    (hu : startsWith uri (bytes "/upload")) :
    .done ∈ statuses (outs (step (writeFlash b)) (powerOn {}) (U.events c uri)) := by
  obtain ⟨u, hstate, hn, hcur, -, -, -, hst, -⟩ :=
    upload_run (writeFlash b) (U := U) (c := c) (s := powerOn {}) hu rfl rfl
  obtain ⟨-, houts⟩ := U.run (writeFlash b) hU hstate hn hcur
  rw [hst, houts, Upload.answers]
  simp

theorem upload_guarded {U : Upload} {c : Conn} {uri : List UInt8} (hU : U.Unchained)
    (hu : startsWith uri (bytes "/upload")) (hfit : U.data.length ≤ 0x70000) :
    CopiesGuarded
      (final (step (writeFlash b)) (powerOn {}) (U.events c uri)).upd.stage.flash.log := by
  obtain ⟨u, hstate, hn, hcur, hstage, -, hupd, -, -⟩ :=
    upload_run (writeFlash b) (U := U) (c := c) (s := powerOn {}) hu rfl rfl
  obtain ⟨hfinal, -⟩ := U.run (writeFlash b) hU hstate hn hcur
  rw [hupd, hfinal]
  have hc0 : u.curlen = 0 := hcur
  have hstart : UpdaterInRange { u with fwupdate := u.fwupdate.armed U.preamble.bytes.length } := by
    refine ⟨by dsimp only; omega, ?_⟩
    dsimp only
    rw [hstage, hc0]
    exact Stage.init_inRange
  exact (octetStream_inRange b hstart U.data (by dsimp only; omega) (by
    dsimp only
    omega)).stage.guarded.copies

/-- **Past the last sector the copy is issued all the same**: the search prepares nothing, and the
result cell still holds the success of the command before. -/
theorem upload_copies_out {U : Upload} {c : Conn} {uri : List UInt8} (hU : U.Unchained)
    (hu : startsWith uri (bytes "/upload")) (hbig : 0x70000 < U.data.length) :
    ¬ CopiesGuarded
      (final (step succeedingFlash) (powerOn {}) (U.events c uri)).upd.stage.flash.log := by
  obtain ⟨u, hstate, hn, hcur, hstage, -, hupd, -, -⟩ :=
    upload_run succeedingFlash (U := U) (c := c) (s := powerOn {}) hu rfl rfl
  obtain ⟨hfinal, -⟩ := U.run succeedingFlash hU hstate hn hcur
  have hc0 : u.curlen = 0 := hcur
  obtain ⟨bs, pad, hlog, -, -, hlen⟩ := stream_blocks Main.ready_init Stage.init_pend U.data
  rw [hupd, hfinal, octetStream_done succeedingFlash (by
    simp only [Fwupdate.armed, hn, Upload.contentLen, List.length_append]
    omega)]
  dsimp only
  rw [show u.stage = Stage.init from hstage, hlog]
  intro h
  -- the 449th block goes to 0x80000
  have hlast : UserBlock (Stage.init.flashPos + 1024 * 448) :=
    userBlock_of_copies h _ (mem_placed (by omega))
  exact absurd hlast.2.1 (by decide)

/-- **When oversized images are refused**, on any board and in any run in which no call of
`write_flash` follows a failed one. One POST from power-on, any body in any pbufs: every copy is in
range behind a successful prepare of its sector and no larger file ends, if and only if the file
bytes of each pbuf fit behind those taken before. A complete upload: its copies are in range and a
larger file is refused if and only if the data fits. -/
theorem oversize_refused_iff (b : Board) (c : Conn) (uri : List UInt8)
    (hu : startsWith uri (bytes "/upload") = true) :
    (∀ (n : Int) (ps : List Pbuf),
        NoneAfterFailure (entries b (powerOn {}) (postEvents c uri n ps)) →
        (StaysInFlash b c uri n ps ↔
          Along (feed noFlash) FitsUserFlash ((powerOn ()).opened c n).upd (ps.map Pbuf.head))) ∧
      ∀ U : Upload, U.Unchained → NoneAfterFailure (entries b (powerOn {}) (U.events c uri)) →
        (RefusesOversize b U (U.events c uri) ↔ U.data.length ≤ 0x70000) := by
  refine ⟨fun n ps => staysInFlash_iff b hu, fun U hU _ => ⟨fun h => ?_, fun hfit => ?_⟩⟩
  · by_contra hlt
    exact h.refused (by omega) (upload_done b hU hu)
  · exact ⟨upload_guarded b hU hu hfit, fun hlt => absurd hlt (by omega)⟩

/-! ## An oversized upload -/

def Upload.zeros (n : Nat) : Upload where
  preamble := .plain
  data := List.replicate (n + 1) 0
  pbufs := .opening 0 :: List.replicate n (.byte 0)
  data_ne := by simp
  nonempty := by
    intro p hp
    rcases List.mem_cons.mp hp with rfl | hp
    · decide
    · rw [(List.mem_replicate.mp hp).2]
      decide
  bytes_eq := by
    rw [List.map_cons, List.map_replicate, List.flatten_cons, List.replicate_succ]
    have hone : (Pbuf.byte 0).bytes = [0] := rfl
    have hzeros : ∀ m, (List.replicate m [(0 : UInt8)]).flatten = List.replicate m 0 := by
      intro m
      simp
    rw [hone, hzeros]
    rfl
  first := by
    intro p hp
    obtain rfl : Pbuf.opening 0 = p := Option.some.inj hp
    exact List.prefix_append _ _

theorem Upload.zeros_unchained (n : Nat) : (Upload.zeros n).Unchained := by
  intro p hp
  rcases List.mem_cons.mp hp with rfl | hp
  · rfl
  · rw [(List.mem_replicate.mp hp).2]
    rfl

theorem oversize_refused_iff_one :
    StaysInFlash .copyFails 1 (bytes "/upload") 48 [.opening 65] ∧
      (RefusesOversize .copyFails (Upload.zeros 0) ((Upload.zeros 0).events 1 (bytes "/upload")) ↔
        (Upload.zeros 0).data.length ≤ 0x70000) := by
  obtain ⟨hpost, hupload⟩ := oversize_refused_iff .copyFails 1 (bytes "/upload") (by decide)
  have hone : ∀ es, (entries .copyFails (powerOn {}) es).tail.length = 0 →
      NoneAfterFailure (entries .copyFails (powerOn {}) es) := by
    intro es h e he
    rw [List.eq_nil_of_length_eq_zero h] at he
    cases he
  refine ⟨(hpost 48 [.opening 65] (hone _ (by decide +kernel))).mpr ?_,
    hupload _ (Upload.zeros_unchained 0) (hone _ (by decide +kernel))⟩
  refine (along_cons _ _ _).mpr ⟨fun k fl h _ => ?_, trivial⟩
  have hstart : fileStart ((powerOn ()).opened 1 48).upd.fwupdate (Pbuf.opening 65).head.mem
      (Pbuf.opening 65).head.payload.length = some (47, 1) := by decide
  obtain ⟨rfl, rfl⟩ := Prod.mk.injEq .. ▸ Option.some.inj (hstart.symm.trans h)
  decide

/-- 0x70001 file bytes: one more than user flash holds. -/
theorem oversized_done :
    ¬ RefusesOversize .succeeding (Upload.zeros 0x70000)
      ((Upload.zeros 0x70000).events 1 (bytes "/upload")) := by
  intro h
  have hlen : (Upload.zeros 0x70000).data.length = 0x70001 := List.length_replicate
  exact h.refused (by omega) (upload_done .succeeding (Upload.zeros_unchained _) (by decide))

end AdcUdpStream.Loader
