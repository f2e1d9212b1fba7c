import AdcUdpStream.Loader.Entries

/-!
# Failed commands and the staging buffer

`write_flash` looks at the result cell twice, after the last prepare and after the
copy, and a call that fails leaves `byte_ctr` at the size of `flash_buf`. Two
statements about whole runs, each with its exact condition, for any result codes:
when a success code stands for a block that was written (`success_truthful_iff`,
about the calls of `write_flash`), and when no store leaves `flash_buf`
(`staging_inside_iff`, about the calls the upload makes).
-/

namespace AdcUdpStream.Loader

open CStr Steps

variable (b : Board)

/-! ## The commands of a block write -/

def Board.answers : List IapEvent → List IapCommand → List IapEvent
  | _, [] => []
  | log, c :: cs => Board.answers (⟨c, b.iapResult log c⟩ :: log) cs ++ [⟨c, b.iapResult log c⟩]

def AllSucceed (es : List IapEvent) : Prop := ∀ e ∈ es, e.result = cmdSuccess

/-- At the start of a sector: its erase, whose results nothing looks at. -/
def eraseCommands (cclk dst : Nat) : List IapCommand :=
  if dst = sectorStart (sectorOf dst) then
    [.prepareSectorForWrite (sectorOf dst) (sectorOf dst) cclk,
      .eraseSector (sectorOf dst) (sectorOf dst) cclk]
  else []

def copyCommands (cclk dst : Nat) (src : List UInt8) : List IapCommand :=
  [.prepareSectorForWrite (sectorOf dst) (sectorOf dst) cclk, .copyRamToFlash dst src 1024 cclk]

/-- What the commands of the erase answer after the log. -/
def Board.eraseAnswers (log : List IapEvent) (dst : Nat) : List IapEvent :=
  b.answers log (eraseCommands (b.systemCoreClock / 1000) dst)

/-- What the last prepare and the copy answer after that. -/
def Board.copyAnswers (log : List IapEvent) (dst : Nat) (src : List UInt8) : List IapEvent :=
  b.answers (b.eraseAnswers log dst ++ log) (copyCommands (b.systemCoreClock / 1000) dst src)

theorem copyAnswers_eq (log : List IapEvent) (dst : Nat) (src : List UInt8) :
    ∃ rp rc, b.copyAnswers log dst src =
      [⟨.copyRamToFlash dst src 1024 (b.systemCoreClock / 1000), rc⟩,
        ⟨.prepareSectorForWrite (sectorOf dst) (sectorOf dst) (b.systemCoreClock / 1000), rp⟩] :=
  ⟨_, _, rfl⟩

/-- The search for the sector of a block gives the commands of the erase and the last prepare. -/
theorem findErasePrepareSector_block (m : Main) {dst : Nat} (hd : UserBlock dst) :
    ∃ r, findErasePrepareSector b m (b.systemCoreClock / 1000) dst =
      prepareSector b { m with resultTable := r, log := b.eraseAnswers m.log dst ++ m.log }
        (sectorOf dst) (sectorOf dst) (b.systemCoreClock / 1000) := by
  unfold findErasePrepareSector Board.eraseAnswers eraseCommands
  rw [hd.find_sector]
  by_cases hs : dst = sectorStart (sectorOf dst)
  · simp only [if_pos hs]
    exact ⟨_, rfl⟩
  · simp only [if_neg hs]
    exact ⟨_, rfl⟩

/-! ## One call -/

/-- A call of `write_flash` with one block. -/
structure BlockWrite where
  dst : Nat
  src : Vector UInt8 1024
  block : UserBlock dst

def writeStep (m : Main) (w : BlockWrite) : Main × Nat :=
  ((writeFlash b m w.dst w.src.toList 1024).2, (writeFlash b m w.dst w.src.toList 1024).1)

variable {b} {m : Main}

structure Main.Empty (m : Main) : Prop where
  byteCtr : m.byteCtr = 0
  flashAddress : m.flashAddress = 0

theorem accumulate_empty (h : m.Empty) (w : BlockWrite) :
    (m.accumulate w.dst w.src.toList 1024).flashAddress = w.dst ∧
      (m.accumulate w.dst w.src.toList 1024).byteCtr = flashBufSize ∧
      (List.range flashBufSize).map (m.accumulate w.dst w.src.toList 1024).flashBuf =
        w.src.toList := by
  refine ⟨if_pos h.flashAddress, ?_, ?_⟩
  · simp only [Main.accumulate, h.byteCtr]
    decide
  · simp only [Main.accumulate, h.byteCtr]
    exact map_getD_range Vector.length_toList m.flashBuf

/-- **A call with nothing staged.** If the last prepare and the copy succeed, it succeeds and has
issued these and the commands of the erase; otherwise it fails with the block still staged. -/
theorem writeStep_empty (h : m.Empty) (w : BlockWrite) :
    (AllSucceed (b.copyAnswers m.log w.dst w.src.toList) ∧ (writeStep b m w).2 = cmdSuccess ∧
        (writeStep b m w).1.Empty ∧
        (writeStep b m w).1.log = b.copyAnswers m.log w.dst w.src.toList ++
          (b.eraseAnswers m.log w.dst ++ m.log)) ∨
      ¬ AllSucceed (b.copyAnswers m.log w.dst w.src.toList) ∧ (writeStep b m w).2 ≠ cmdSuccess ∧
        (writeStep b m w).1.byteCtr = flashBufSize := by
  obtain ⟨haddr, hfull, hbuf⟩ := accumulate_empty h w
  obtain ⟨r, hfind⟩ := findErasePrepareSector_block b (m.accumulate w.dst w.src.toList 1024) w.block
  have hlog : (m.accumulate w.dst w.src.toList 1024).log = m.log := rfl
  obtain ⟨m₁, m₂, h₁, h₂, hcases⟩ := program_cases b (m.accumulate w.dst w.src.toList 1024)
  rw [haddr, hfind] at h₁
  have hm₁ : m₁.log = ⟨.prepareSectorForWrite (sectorOf w.dst) (sectorOf w.dst)
      (b.systemCoreClock / 1000), m₁.resultTable⟩ :: (b.eraseAnswers m.log w.dst ++ m.log) := by
    rw [h₁]
    rfl
  have hkeep : m₁.flashAddress = w.dst ∧ m₁.byteCtr = flashBufSize ∧
      (List.range flashBufSize).map m₁.flashBuf = w.src.toList := by
    rw [h₁]
    exact ⟨haddr, hfull, hbuf⟩
  have hm₂ : m₂.log = ⟨.copyRamToFlash w.dst w.src.toList 1024 (b.systemCoreClock / 1000),
      m₂.resultTable⟩ :: m₁.log := by
    rw [h₂, writeData, hkeep.1, hkeep.2.2]
    rfl
  have hans : b.copyAnswers m.log w.dst w.src.toList ++ (b.eraseAnswers m.log w.dst ++ m.log) =
      m₂.log := by
    rw [hm₂, h₂, writeData, hkeep.1, hkeep.2.2, iapEntry, hm₁, h₁]
    rfl
  have hall : AllSucceed (b.copyAnswers m.log w.dst w.src.toList) ↔
      m₂.resultTable = cmdSuccess ∧ m₁.resultTable = cmdSuccess := by
    obtain ⟨rp, rc, heq⟩ := copyAnswers_eq b m.log w.dst w.src.toList
    have hcodes := hans
    rw [heq, hm₂, hm₁] at hcodes
    simp only [List.cons_append, List.nil_append, List.cons.injEq, IapEvent.mk.injEq, true_and,
      and_true] at hcodes
    rw [heq, hcodes.1, hcodes.2]
    simp [AllSucceed]
  unfold writeStep
  rw [writeFlash_eq, if_pos hfull]
  rcases hcases with ⟨h1, hprog⟩ | ⟨h1, h2, hprog⟩ | ⟨h1, h2, hprog⟩
  · rw [hprog]
    exact .inr ⟨fun h => h1 (hall.mp h).2, h1, hkeep.2.1⟩
  · rw [hprog]
    exact .inr ⟨fun h => h2 (hall.mp h).1, h2, by rw [h₂]; exact hkeep.2.1⟩
  · rw [hprog]
    exact .inl ⟨hall.mpr ⟨h2, h1⟩, rfl, ⟨rfl, rfl⟩, hans.symm⟩

/-- A call with a block staged by a failed call issues nothing and succeeds. -/
theorem writeStep_staged (h : m.byteCtr = flashBufSize) (w : BlockWrite) :
    (writeStep b m w).2 = cmdSuccess ∧ (writeStep b m w).1.log = m.log := by
  have hne : (m.accumulate w.dst w.src.toList 1024).byteCtr ≠ flashBufSize := by
    simp only [Main.accumulate, h]
    decide
  rw [writeStep, writeFlash_eq, if_neg hne]
  exact ⟨rfl, rfl⟩

/-! ## When a success code is true -/

/-- A success code means: the call has issued the copy of exactly the source bytes to `dst`, and
every command it issued succeeded. -/
def Truthful (b : Board) (m : Main) (w : BlockWrite) : Prop :=
  (writeStep b m w).2 = cmdSuccess → ∃ issued, (writeStep b m w).1.log = issued ++ m.log ∧
    (∃ cclk, ⟨.copyRamToFlash w.dst w.src.toList 1024 cclk, cmdSuccess⟩ ∈ issued) ∧
    AllSucceed issued

/-- Nothing is staged by a failed call, and the commands of the erase do not fail where the last
prepare and the copy succeed. -/
def Unmasked (b : Board) (m : Main) (w : BlockWrite) : Prop :=
  m.byteCtr = 0 ∧ (AllSucceed (b.copyAnswers m.log w.dst w.src.toList) →
    AllSucceed (b.eraseAnswers m.log w.dst))

def Main.Settled (m : Main) : Prop := m.Empty ∨ m.byteCtr = flashBufSize

theorem copy_mem_copyAnswers (log : List IapEvent) {dst : Nat} {src : List UInt8}
    (h : AllSucceed (b.copyAnswers log dst src)) :
    ⟨.copyRamToFlash dst src 1024 (b.systemCoreClock / 1000), cmdSuccess⟩ ∈
      b.copyAnswers log dst src := by
  obtain ⟨rp, rc, heq⟩ := copyAnswers_eq b log dst src
  rw [heq] at h ⊢
  have hrc : rc = cmdSuccess := h _ (List.mem_cons_self ..)
  rw [hrc]
  exact List.mem_cons_self ..

theorem truthful_iff (hm : m.Settled) (w : BlockWrite) : Truthful b m w ↔ Unmasked b m w := by
  unfold Truthful Unmasked
  rcases hm with hempty | hstaged
  · rcases writeStep_empty (b := b) hempty w with ⟨hall, hok, -, hlog⟩ | ⟨hall, hfail, -⟩
    · constructor
      · intro h
        obtain ⟨issued, hissued, -, hsucc⟩ := h hok
        rw [hlog, ← List.append_assoc] at hissued
        rw [← List.append_cancel_right hissued] at hsucc
        exact ⟨hempty.byteCtr, fun _ e he => hsucc e (List.mem_append_right _ he)⟩
      · rintro ⟨-, hmask⟩ -
        refine ⟨b.copyAnswers m.log w.dst w.src.toList ++ b.eraseAnswers m.log w.dst,
          by rw [hlog, List.append_assoc],
          ⟨_, List.mem_append_left _ (copy_mem_copyAnswers m.log hall)⟩, ?_⟩
        intro e he
        exact (List.mem_append.mp he).elim (hall e) (hmask hall e)
    · exact iff_of_true (fun h => absurd h hfail)
        ⟨hempty.byteCtr, fun h => absurd h hall⟩
  · -- the block of a failed call is staged: a success code without a command
    obtain ⟨hok, hlog⟩ := writeStep_staged (b := b) hstaged w
    refine iff_of_false (fun h => ?_) (fun h => ?_)
    · obtain ⟨issued, hissued, ⟨cclk, hcopy⟩, -⟩ := h hok
      rw [hlog, List.self_eq_append_left] at hissued
      rw [hissued] at hcopy
      cases hcopy
    · have h0 := h.1
      rw [hstaged] at h0
      cases h0

theorem settled_step (hm : m.Settled) (w : BlockWrite) (h : Truthful b m w) :
    (writeStep b m w).1.Settled := by
  have hmask := (truthful_iff hm w).mp h
  have hempty : m.Empty := hm.resolve_right fun hstaged => by
    rw [Unmasked, hstaged] at hmask
    cases hmask.1
  rcases writeStep_empty (b := b) hempty w with ⟨-, -, hnext, -⟩ | ⟨-, -, hnext⟩
  · exact .inl hnext
  · exact .inr hnext

/-- **When the success codes of `write_flash` are true.** For every board and every sequence of
block writes from power-on: each success code of the run stands for a copy of exactly the source
bytes, with all commands of its call successful, if and only if no call finds a block staged by a
failed one, and no call has the commands of its erase fail and the last prepare and the copy
succeed. -/
theorem success_truthful_iff (b : Board) (ws : List BlockWrite) :
    Along (writeStep b) (Truthful b) {} ws ↔ Along (writeStep b) (Unmasked b) {} ws :=
  along_congr (I := Main.Settled) (fun _ w hm h => settled_step hm w h)
    (fun _ w hm => truthful_iff hm w) (.inl ⟨rfl, rfl⟩) ws

def zeroBlock : BlockWrite := ⟨0x10000, Vector.replicate 1024 0, by unfold UserBlock; decide⟩

/-- The copy fails, and the same call again returns success without a command. -/
theorem success_without_copy :
    ¬ Along (writeStep .copyFails) (Truthful .copyFails) {} [zeroBlock, zeroBlock] := by
  rintro ⟨-, hagain, -⟩
  have hstaged : (writeStep .copyFails {} zeroBlock).1.byteCtr = flashBufSize := by decide
  have hmask := (truthful_iff (.inr hstaged) zeroBlock).mp hagain
  rw [Unmasked, hstaged] at hmask
  cases hmask.1

/-! ## When the staging buffer is not overrun -/

/-- **When the staging buffer is not overrun.** For every board and every run of calls from the
start of the server loop: each store of each call of `write_flash` is inside `flash_buf`, if and
only if no call of `write_flash` follows one that failed. -/
theorem staging_inside_iff (b : Board) (es : List Event) :
    (∀ e ∈ entries b (powerOn (eraseUserSectors b)) es, e.Inside) ↔
      NoneAfterFailure (entries b (powerOn (eraseUserSectors b)) es) :=
  (staged_run rfl es).inside

/-- The first block write fails, and a second client's ends its file as well. -/
def secondWrite : List Event :=
  [.postBegin 1 (bytes "/upload") 49, .receiveData 1 (.opening 65),
    .postBegin 2 (bytes "/upload") 49, .receiveData 2 (.opening 66),
    .postBegin 3 (bytes "/upload") 49, .receiveData 3 (.opening 67)]

/-- The second call of `write_flash` stores from `flash_buf[1024]` on. -/
theorem staging_overrun :
    ¬ ∀ e ∈ entries .copyFails (powerOn (eraseUserSectors .copyFails)) secondWrite, e.Inside := by
  intro h
  have hfirst : (entries .copyFails (powerOn (eraseUserSectors .copyFails)) secondWrite).head?.map
      (fun e => (e.byteCtr, e.noOfBytes)) = some (1024, 1024) := by decide +kernel
  obtain ⟨e, he, heq⟩ := Option.map_eq_some_iff.mp hfirst
  obtain ⟨hctr, hn⟩ := Prod.mk.injEq .. ▸ heq
  have hlt := h e (List.mem_of_mem_head? he) 0 (by omega)
  rw [hctr] at hlt
  exact absurd hlt (by decide)

end AdcUdpStream.Loader
