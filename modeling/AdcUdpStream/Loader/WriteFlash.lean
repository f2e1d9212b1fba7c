import AdcUdpStream.Loader.Flash

/-!
# `write_flash` block by block

Two specifications of one 1024-byte call. On the board where every command
succeeds a call from a state at rest (`Main.Ready`) returns to rest, and the
commands it issued are `writeLog` (`writeFlash_ready`); on flash that is erased
from the address on they write the block and change nothing else
(`flashAfter_writeLog`). On any board every `COPY` goes to the address
`write_flash` remembered and follows a successful prepare of its sector, as long
as the addresses are blocks of user flash (`writeFlash_guarded`).
-/

namespace AdcUdpStream.Loader

open Overlay

/-- A 1024-byte block inside sectors 16 to 29. -/
def UserBlock (a : Nat) : Prop := 0x10000 ≤ a ∧ a + 1024 ≤ 0x80000 ∧ a % 1024 = 0

theorem UserBlock.find_sector {a : Nat} (h : UserBlock a) :
    userSectors.find? (fun i => decide (a < sectorEnd i)) = some (sectorOf a) := by
  obtain ⟨h1, h2, h3⟩ := h
  exact find_userSector h1 (by omega) (by omega)

/-! ## Every command succeeds -/

/-- `write_flash` at rest: no bytes pending, no address remembered, no failed command. -/
structure Main.Ready (m : Main) : Prop where
  flashAddress : m.flashAddress = 0
  byteCtr : m.byteCtr = 0
  resultTable : m.resultTable = cmdSuccess

/-- The commands of `find_erase_prepare_sector` when all succeed, newest first. -/
def sectorLog (cclk dst : Nat) : List IapEvent :=
  match userSectors.find? (fun i => decide (dst < sectorEnd i)) with
  | some i =>
    ⟨.prepareSectorForWrite i i cclk, cmdSuccess⟩ ::
      (if dst = sectorStart i then
        [⟨.eraseSector i i cclk, cmdSuccess⟩, ⟨.prepareSectorForWrite i i cclk, cmdSuccess⟩]
      else [])
  | none => []

/-- The commands of one block write when all succeed, newest first. -/
def writeLog (cclk dst : Nat) (src : List UInt8) : List IapEvent :=
  ⟨.copyRamToFlash dst src 1024 cclk, cmdSuccess⟩ :: sectorLog cclk dst

def succeedingCclk : Nat := Board.succeeding.systemCoreClock / 1000

abbrev succeedingFlash : Main → Nat → List UInt8 → Nat → Nat × Main := writeFlash Board.succeeding

theorem iapEntry_succeeding (m : Main) (c : IapCommand) :
    iapEntry Board.succeeding m c =
      { m with resultTable := cmdSuccess, log := ⟨c, cmdSuccess⟩ :: m.log } := rfl

theorem findErasePrepareSector_succeeding {m : Main} (hr : m.resultTable = cmdSuccess)
    (cclk dst : Nat) :
    findErasePrepareSector Board.succeeding m cclk dst =
      { m with log := sectorLog cclk dst ++ m.log } := by
  unfold findErasePrepareSector sectorLog
  cases userSectors.find? (fun i => decide (dst < sectorEnd i)) with
  | none => rfl
  | some i =>
    by_cases hs : dst = sectorStart i
    · simp only [if_pos hs, prepareSector, eraseSector, iapEntry_succeeding, hr, List.cons_append,
        List.nil_append]
    · simp only [if_neg hs, prepareSector, iapEntry_succeeding, hr, List.cons_append,
        List.nil_append]

theorem map_getD_range {src : List UInt8} (hs : src.length = 1024) (g : Nat → UInt8) :
    (List.range 1024).map (fun k => if 0 ≤ k ∧ k < 0 + 1024 then src.getD (k - 0) 0 else g k) =
      src := by
  apply List.ext_getElem
  · rw [List.length_map, List.length_range, hs]
  · intro k hk hk'
    have hlt : k < 1024 := by rw [← hs]; exact hk'
    rw [List.getElem_map, List.getElem_range, if_pos ⟨Nat.zero_le k, by omega⟩, Nat.sub_zero,
      ← List.getElem_eq_getD (h := hk') 0]

/-- The first half of `write_flash`: the bytes go into `flash_buf`. -/
def Main.accumulate (m : Main) (dst : Nat) (src : List UInt8) (n : Nat) : Main :=
  { m with
    flashAddress := if m.flashAddress = 0 then dst else m.flashAddress
    flashBuf := fun k =>
      if m.byteCtr ≤ k ∧ k < m.byteCtr + n then src.getD (k - m.byteCtr) 0 else m.flashBuf k
    byteCtr := (m.byteCtr + n) % 2 ^ 32 }

/-- The second half: `flash_buf` goes to the remembered address. -/
def Main.program (b : Board) (m : Main) : Nat × Main :=
  let m := findErasePrepareSector b m (b.systemCoreClock / 1000) m.flashAddress
  if m.resultTable ≠ cmdSuccess then (m.resultTable, m)
  else
    let m := writeData b m (b.systemCoreClock / 1000) m.flashAddress m.flashBuf flashBufSize
    if m.resultTable ≠ cmdSuccess then (m.resultTable, m)
    else (cmdSuccess, { m with byteCtr := 0, flashAddress := 0 })

theorem writeFlash_eq (b : Board) (m : Main) (dst : Nat) (src : List UInt8) (n : Nat) :
    writeFlash b m dst src n =
      if (m.accumulate dst src n).byteCtr = flashBufSize then (m.accumulate dst src n).program b
      else (cmdSuccess, m.accumulate dst src n) := by
  unfold writeFlash Main.accumulate
  by_cases ha : m.flashAddress = 0
  · simp only [ha, ↓reduceIte]
    rfl
  · simp only [ha, ↓reduceIte]
    rfl

/-- Where the second half of `write_flash` ends: at the last prepare, at the copy, or at the end. -/
theorem program_cases (b : Board) (m : Main) :
    ∃ m₁ m₂ : Main,
      m₁ = findErasePrepareSector b m (b.systemCoreClock / 1000) m.flashAddress ∧
      m₂ = writeData b m₁ (b.systemCoreClock / 1000) m₁.flashAddress m₁.flashBuf flashBufSize ∧
      (m₁.resultTable ≠ cmdSuccess ∧ m.program b = (m₁.resultTable, m₁) ∨
        m₁.resultTable = cmdSuccess ∧ m₂.resultTable ≠ cmdSuccess ∧
          m.program b = (m₂.resultTable, m₂) ∨
        m₁.resultTable = cmdSuccess ∧ m₂.resultTable = cmdSuccess ∧
          m.program b = (cmdSuccess, { m₂ with byteCtr := 0, flashAddress := 0 })) := by
  refine ⟨_, _, rfl, rfl, ?_⟩
  unfold Main.program
  dsimp only
  split
  · next h1 => exact .inl ⟨h1, rfl⟩
  · next h1 =>
    split
    · next h2 => exact .inr (.inl ⟨not_not.mp h1, h2, rfl⟩)
    · next h2 => exact .inr (.inr ⟨not_not.mp h1, not_not.mp h2, rfl⟩)

theorem findErasePrepareSector_eq (b : Board) (m : Main) (cclk a : Nat) :
    ∃ r es, findErasePrepareSector b m cclk a =
      { m with resultTable := r, log := es ++ m.log } := by
  unfold findErasePrepareSector
  split
  · next i _ =>
    by_cases hs : a = sectorStart i
    · simp only [if_pos hs]
      exact ⟨_, [_, _, _], rfl⟩
    · simp only [if_neg hs]
      exact ⟨_, [_], rfl⟩
  · exact ⟨m.resultTable, [], rfl⟩

@[simp] theorem findErasePrepareSector_byteCtr (b : Board) (m : Main) (cclk a : Nat) :
    (findErasePrepareSector b m cclk a).byteCtr = m.byteCtr := by
  obtain ⟨r, es, h⟩ := findErasePrepareSector_eq b m cclk a
  rw [h]

@[simp] theorem findErasePrepareSector_flashAddress (b : Board) (m : Main) (cclk a : Nat) :
    (findErasePrepareSector b m cclk a).flashAddress = m.flashAddress := by
  obtain ⟨r, es, h⟩ := findErasePrepareSector_eq b m cclk a
  rw [h]

theorem writeFlash_log (b : Board) (m : Main) (dst : Nat) (src : List UInt8) (n : Nat) :
    ∃ es, (writeFlash b m dst src n).2.log = es ++ m.log := by
  rw [writeFlash_eq]
  split
  · obtain ⟨m₁, m₂, h₁, h₂, hcases⟩ := program_cases b (m.accumulate dst src n)
    obtain ⟨r, es, hfind⟩ := findErasePrepareSector_eq b (m.accumulate dst src n)
      (b.systemCoreClock / 1000) (m.accumulate dst src n).flashAddress
    rw [hfind] at h₁
    have hm₁ : m₁.log = es ++ m.log := by
      rw [h₁]
      rfl
    have hm₂ : ∃ e, m₂.log = e :: m₁.log := ⟨_, by rw [h₂]; rfl⟩
    obtain ⟨e, hm₂⟩ := hm₂
    rcases hcases with ⟨-, hprog⟩ | ⟨-, -, hprog⟩ | ⟨-, -, hprog⟩
    · exact ⟨es, by rw [hprog, hm₁]⟩
    · exact ⟨e :: es, by rw [hprog, hm₂, hm₁]; rfl⟩
    · exact ⟨e :: es, by rw [hprog, hm₂, hm₁]; rfl⟩
  · exact ⟨[], rfl⟩

theorem program_succeeding {m : Main} (hr : m.resultTable = cmdSuccess) :
    m.program Board.succeeding =
      (cmdSuccess, { m with
        byteCtr := 0
        flashAddress := 0
        log := writeLog succeedingCclk m.flashAddress ((List.range 1024).map m.flashBuf) ++
          m.log }) := by
  unfold Main.program
  rw [findErasePrepareSector_succeeding hr]
  simp only [hr, writeData, iapEntry_succeeding, ne_eq, not_true_eq_false, ↓reduceIte]
  rfl

/-- **A block write succeeds** from a state at rest, and comes back to rest. -/
theorem writeFlash_ready {m : Main} (hm : m.Ready) (dst : Nat) {src : List UInt8}
    (hs : src.length = 1024) :
    (succeedingFlash m dst src 1024).1 = cmdSuccess ∧
      (succeedingFlash m dst src 1024).2.Ready ∧
      (succeedingFlash m dst src 1024).2.log =
        writeLog succeedingCclk dst src ++ m.log := by
  obtain ⟨ha, hb, hr⟩ := hm
  have hfull : (m.accumulate dst src 1024).byteCtr = flashBufSize := by
    simp only [Main.accumulate, hb]
    decide
  have haddr : (m.accumulate dst src 1024).flashAddress = dst := if_pos ha
  have hbuf : (List.range 1024).map (m.accumulate dst src 1024).flashBuf = src := by
    simp only [Main.accumulate, hb]
    exact map_getD_range hs m.flashBuf
  rw [succeedingFlash, writeFlash_eq, if_pos hfull, program_succeeding (by exact hr), haddr, hbuf]
  exact ⟨rfl, ⟨rfl, rfl, hr⟩, rfl⟩

theorem programOps_writeLog (cclk dst : Nat) (src : List UInt8) :
    programOps (writeLog cclk dst src) = [(dst, src)] := by
  unfold writeLog sectorLog programOps
  split
  · split <;> simp
  · simp

/-! ## The effect on erased flash -/

section Effect

variable (cell : FlashCell) {f : Flash} {dst : Nat} {src : List UInt8} (cclk : Nat)

/-- Writing bytes over an erased memory stores them, whatever programming does elsewhere. -/
theorem overlay_program (h : ∀ i < src.length, f.mem (dst + i) = 0xFF) :
    overlay cell.program f.mem dst src = overlay (fun _ y => y) f.mem dst src := by
  funext x
  unfold overlay
  split
  · next hx =>
    cases hy : src[x - dst]? with
    | none => rfl
    | some y =>
      obtain ⟨hlt, -⟩ := List.getElem?_eq_some_iff.mp hy
      have he := h (x - dst) hlt
      rw [Nat.add_sub_cancel' hx] at he
      simp only [he, cell.program_erased]
  · rfl

theorem exec_prepare {s t : Nat} :
    f.exec cell ⟨.prepareSectorForWrite s t cclk, cmdSuccess⟩ =
      { f with prepared := fun i => decide (s ≤ i ∧ i ≤ t) || f.prepared i } := by
  simp only [Flash.exec, ↓reduceIte]

theorem exec_copy (hp : f.prepared (sectorOf dst) = true) (hs : src.length = 1024) :
    (f.exec cell ⟨.copyRamToFlash dst src 1024 cclk, cmdSuccess⟩).mem =
      overlay cell.program f.mem dst src := by
  simp only [Flash.exec, ↓reduceIte, hp, ← hs, List.take_length]

theorem exec_erase_mem {s : Nat} (h : ∀ a, sectorOf a = s → f.mem a = 0xFF) :
    (f.exec cell ⟨.eraseSector s s cclk, cmdSuccess⟩).mem = f.mem := by
  funext a
  simp only [Flash.exec, ↓reduceIte]
  split
  · next hc => exact (h a (by omega)).symm
  · rfl

theorem sectorLog_block (hd : UserBlock dst) :
    sectorLog cclk dst =
      ⟨.prepareSectorForWrite (sectorOf dst) (sectorOf dst) cclk, cmdSuccess⟩ ::
        (if dst = sectorStart (sectorOf dst) then
          [⟨.eraseSector (sectorOf dst) (sectorOf dst) cclk, cmdSuccess⟩,
            ⟨.prepareSectorForWrite (sectorOf dst) (sectorOf dst) cclk, cmdSuccess⟩]
        else []) := by
  unfold sectorLog
  rw [hd.find_sector]

/-- Where flash is erased from the block on, preparing its sector changes no byte. -/
theorem flashAfter_sectorLog (hd : UserBlock dst)
    (he : ∀ a, dst ≤ a → a < 0x80000 → f.mem a = 0xFF) :
    (flashAfter cell f (sectorLog cclk dst)).mem = f.mem ∧
      (flashAfter cell f (sectorLog cclk dst)).prepared (sectorOf dst) = true := by
  rw [sectorLog_block cclk hd]
  by_cases hst : dst = sectorStart (sectorOf dst)
  · rw [if_pos hst, flashAfter_cons, flashAfter_cons, flashAfter_cons, flashAfter_nil, exec_prepare,
      exec_prepare]
    refine ⟨exec_erase_mem cell cclk fun a ha => ?_, by simp⟩
    have hb := sectorOf_bounds a
    obtain ⟨h1, h2, -⟩ := hd
    have hs := sectorOf_user h1
    rw [ha, ← hst, sectorEnd_user (by omega)] at hb
    exact he a hb.1 (by omega)
  · rw [if_neg hst, flashAfter_cons, flashAfter_nil, exec_prepare]
    exact ⟨rfl, by simp⟩

/-- **The commands of a block write store the block**, where flash is erased from there on. -/
theorem flashAfter_writeLog (hd : UserBlock dst) (hs : src.length = 1024)
    (he : ∀ a, dst ≤ a → a < 0x80000 → f.mem a = 0xFF) :
    (flashAfter cell f (writeLog cclk dst src)).mem = overlay (fun _ y => y) f.mem dst src := by
  obtain ⟨hmem, hprep⟩ := flashAfter_sectorLog cell cclk hd he
  unfold writeLog
  rw [flashAfter_cons, exec_copy cell cclk hprep hs, hmem, overlay_program]
  intro i hi
  exact he _ (by omega) (by obtain ⟨-, h2, -⟩ := hd; omega)

end Effect

/-! ## Any result codes -/

/-- The log before a command ends with a successful prepare of the sector of `dst`. -/
def PreparedFor (dst : Nat) : List IapEvent → Prop
  | ⟨.prepareSectorForWrite s t _, r⟩ :: _ =>
    r = cmdSuccess ∧ s ≤ sectorOf dst ∧ sectorOf dst ≤ t
  | _ => False

/-- Every copy goes to a block of user flash and follows a successful prepare of its sector. -/
def CopiesGuarded : List IapEvent → Prop
  | [] => True
  | ⟨.copyRamToFlash dst _ _ _, _⟩ :: log => UserBlock dst ∧ PreparedFor dst log ∧ CopiesGuarded log
  | _ :: log => CopiesGuarded log

structure Main.Guarded (m : Main) : Prop where
  flashAddress : m.flashAddress = 0 ∨ UserBlock m.flashAddress
  copies : CopiesGuarded m.log

variable {b : Board}

theorem Main.guarded_init : Main.Guarded {} := ⟨.inl rfl, trivial⟩

/-- The search for the sector of a block issues no copy, and a success leaves the log ending with
a successful prepare. -/
theorem findErasePrepareSector_guarded {m : Main} {a : Nat} (cclk : Nat) (ha : UserBlock a)
    (hc : CopiesGuarded m.log) :
    (findErasePrepareSector b m cclk a).flashAddress = m.flashAddress ∧
      CopiesGuarded (findErasePrepareSector b m cclk a).log ∧
      ((findErasePrepareSector b m cclk a).resultTable = cmdSuccess →
        PreparedFor a (findErasePrepareSector b m cclk a).log) := by
  unfold findErasePrepareSector
  rw [ha.find_sector]
  by_cases hs : a = sectorStart (sectorOf a)
  · simp only [if_pos hs]
    exact ⟨rfl, hc, fun hr => ⟨hr, le_rfl, le_rfl⟩⟩
  · simp only [if_neg hs]
    exact ⟨rfl, hc, fun hr => ⟨hr, le_rfl, le_rfl⟩⟩

theorem program_guarded {m : Main} (ha : UserBlock m.flashAddress) (hc : CopiesGuarded m.log) :
    (m.program b).2.Guarded := by
  obtain ⟨haddr, hlog, hp⟩ := findErasePrepareSector_guarded (b := b)
    (b.systemCoreClock / 1000) ha hc
  unfold Main.program
  generalize findErasePrepareSector b m (b.systemCoreClock / 1000) m.flashAddress = m' at *
  rw [← haddr] at ha hp
  dsimp only
  by_cases hr : m'.resultTable = cmdSuccess
  · have hcopy : CopiesGuarded (writeData b m' (b.systemCoreClock / 1000) m'.flashAddress
        m'.flashBuf flashBufSize).log := ⟨ha, hp hr, hlog⟩
    rw [if_neg (not_not.mpr hr)]
    split
    · exact ⟨.inr ha, hcopy⟩
    · exact ⟨.inl rfl, hcopy⟩
  · rw [if_pos hr]
    exact ⟨.inr ha, hlog⟩

/-- **No copy out of range**: a call with a block address keeps the log guarded, for any codes. -/
theorem writeFlash_guarded {m : Main} (hm : m.Guarded) {dst : Nat} (hd : UserBlock dst)
    (src : List UInt8) (n : Nat) : (writeFlash b m dst src n).2.Guarded := by
  have haddr : UserBlock (m.accumulate dst src n).flashAddress := by
    show UserBlock (if m.flashAddress = 0 then dst else m.flashAddress)
    split
    · exact hd
    · next h0 => exact hm.flashAddress.resolve_left h0
  rw [writeFlash_eq]
  split
  · exact program_guarded haddr hm.copies
  · exact ⟨.inr haddr, hm.copies⟩

end AdcUdpStream.Loader
