import AdcUdpStream.Lib.Blocks
import AdcUdpStream.Loader.Multipart
import AdcUdpStream.Loader.WriteFlash

/-!
# The block loop

`storeByte` over a byte string, against three callees. Any driver: the counters
depend on the number of bytes only, not on the codes (`foldl_flashCnt`,
`foldl_calls`). `write_flash` of the board on which every command succeeds: the
blocks written are those of `Blocks.fill` at consecutive addresses, and what is
pending is its rest (`foldl_ready`). `write_flash` of any board: as long as the
blocks fit user flash, the log stays guarded (`foldl_inRange`).
-/

namespace AdcUdpStream.Loader

open Blocks Overlay

/-! ## One byte -/

section Byte

variable {F : Type} (wf : WriteFlash F) {s : Stage F} (x : UInt8)

def Stage.pend (s : Stage F) : List UInt8 := s.dataArr.toList.take s.flashCnt

@[simp] theorem Stage.pend_length (s : Stage F) : s.pend.length = s.flashCnt := by
  have := s.flashCnt.isLt
  simp only [pend, List.length_take, Vector.length_toList]
  omega

theorem take_set_succ {l : List UInt8} {i : Nat} (hi : i < l.length) :
    (l.set i x).take (i + 1) = l.take i ++ [x] := by
  have hl : i < (l.set i x).length := by rwa [List.length_set]
  rw [List.take_succ_eq_append_getElem hl, List.take_set_of_le (Nat.le_refl i),
    List.getElem_set_self]

theorem pend_set (s : Stage F) (x : UInt8) :
    (s.put x).toList.take (s.flashCnt + 1) = s.pend ++ [x] := by
  unfold Stage.put
  rw [Vector.toList_set]
  exact take_set_succ x (by rw [Vector.length_toList]; exact s.flashCnt.isLt)

theorem put_full (x : UInt8) (h : ¬ (s.flashCnt : Nat) + 1 < 1024) :
    (s.put x).toList = s.pend ++ [x] := by
  rw [← pend_set s x, List.take_of_length_le]
  rw [Vector.length_toList]
  omega

theorem storeByte_lt (h : (s.flashCnt : Nat) + 1 < 1024) :
    (storeByte wf s x).pend = s.pend ++ [x] ∧
      ((storeByte wf s x).flashCnt : Nat) = s.flashCnt + 1 ∧
      (storeByte wf s x).flashPos = s.flashPos ∧ (storeByte wf s x).flash = s.flash := by
  have hs : storeByte wf s x =
      { s with dataArr := s.put x, flashCnt := ⟨s.flashCnt + 1, h⟩ } := by
    rw [storeByte, dif_pos h]
  rw [hs]
  exact ⟨pend_set s x, rfl, rfl, rfl⟩

/-- A byte that fills the block: the block is handed to `write_flash`, and `flash_pos` moves if it
was written. -/
theorem storeByte_full (h : ¬ (s.flashCnt : Nat) + 1 < 1024) :
    ((storeByte wf s x).flashCnt : Nat) = 0 ∧
      (storeByte wf s x).flashPos =
        (if (wf s.flash s.flashPos (s.pend ++ [x]) 1024).1 = cmdSuccess then s.flashPos + 1024
          else s.flashPos) ∧
      (storeByte wf s x).flash = (wf s.flash s.flashPos (s.pend ++ [x]) 1024).2 := by
  rw [storeByte, dif_neg h]
  simp only [put_full x h]
  split <;> exact ⟨rfl, rfl, rfl⟩

theorem storeByte_written (h : ¬ (s.flashCnt : Nat) + 1 < 1024)
    (hw : (wf s.flash s.flashPos (s.pend ++ [x]) 1024).1 = cmdSuccess) :
    (storeByte wf s x).dataArr = Vector.replicate 1024 0xff := by
  rw [storeByte, dif_neg h]
  simp only [put_full x h, if_pos hw]

theorem writeRest_eq (s : Stage F) :
    writeRest wf s = { s with flash :=
      if 0 < (s.flashCnt : Nat) then (wf s.flash s.flashPos s.dataArr.toList 1024).2
      else s.flash } := by
  unfold writeRest
  split <;> rfl

end Byte

/-! ## Any driver -/

section AnyDriver

variable {F : Type} (wf : WriteFlash F)

theorem foldl_flashCnt (s : Stage F) (xs : List UInt8) :
    ((xs.foldl (storeByte wf) s).flashCnt : Nat) = (s.flashCnt + xs.length) % 1024 := by
  induction xs generalizing s with
  | nil => exact (Nat.mod_eq_of_lt s.flashCnt.isLt).symm
  | cons x xs ih =>
    have hlt := s.flashCnt.isLt
    rw [List.foldl_cons, ih, List.length_cons]
    by_cases h : (s.flashCnt : Nat) + 1 < 1024
    · rw [(storeByte_lt wf x h).2.1]
      omega
    · rw [(storeByte_full wf x h).1]
      omega

theorem foldl_calls (calls : F → Nat) (hc : ∀ f a b n, calls (wf f a b n).2 = calls f + 1)
    (s : Stage F) (xs : List UInt8) :
    calls (xs.foldl (storeByte wf) s).flash = calls s.flash + (s.flashCnt + xs.length) / 1024 := by
  induction xs generalizing s with
  | nil =>
    have := s.flashCnt.isLt
    rw [List.foldl_nil, List.length_nil]
    omega
  | cons x xs ih =>
    have hlt := s.flashCnt.isLt
    rw [List.foldl_cons, ih, List.length_cons]
    by_cases h : (s.flashCnt : Nat) + 1 < 1024
    · obtain ⟨-, hcnt, -, hflash⟩ := storeByte_lt wf x h
      rw [hcnt, hflash]
      omega
    · obtain ⟨hcnt, -, hflash⟩ := storeByte_full wf x h
      rw [hcnt, hflash, hc]
      omega

end AnyDriver

/-! ## Every command succeeds -/

section Ready

/-- The log of block writes, newest first. -/
def blocksLog : List (Nat × List UInt8) → List IapEvent
  | [] => []
  | w :: ws => blocksLog ws ++ writeLog succeedingCclk w.1 w.2

theorem blocksLog_append (ws vs : List (Nat × List UInt8)) :
    blocksLog (ws ++ vs) = blocksLog vs ++ blocksLog ws := by
  induction ws with
  | nil => rw [List.nil_append, blocksLog, List.append_nil]
  | cons w ws ih => rw [List.cons_append, blocksLog, ih, blocksLog, List.append_assoc]

theorem programOps_blocksLog (ws : List (Nat × List UInt8)) : programOps (blocksLog ws) = ws := by
  induction ws with
  | nil => rfl
  | cons w ws ih =>
    rw [blocksLog, programOps_append, programOps_writeLog, ih]
    rfl

/-- **The block loop writes the blocks of the stream**, one behind the other. -/
theorem foldl_ready {s : Stage Main} (hs : s.flash.Ready) (xs : List UInt8) :
    (xs.foldl (storeByte succeedingFlash) s).flash.Ready ∧
      (xs.foldl (storeByte succeedingFlash) s).pend = (fill 1024 s.pend xs).2 ∧
      (xs.foldl (storeByte succeedingFlash) s).flashPos =
        s.flashPos + 1024 * (fill 1024 s.pend xs).1.length ∧
      (xs.foldl (storeByte succeedingFlash) s).flash.log =
        blocksLog (placed 1024 s.flashPos (fill 1024 s.pend xs).1) ++ s.flash.log := by
  induction xs generalizing s with
  | nil => exact ⟨hs, rfl, rfl, rfl⟩
  | cons x xs ih =>
    rw [List.foldl_cons]
    by_cases h : (s.flashCnt : Nat) + 1 < 1024
    · obtain ⟨hpend, -, hpos, hflash⟩ := storeByte_lt succeedingFlash x h
      have := ih (s := storeByte succeedingFlash s x) (by rw [hflash]; exact hs)
      rwa [hpend, hpos, hflash, ← fill_cons_lt x xs (by rwa [Stage.pend_length])] at this
    · obtain ⟨hcnt, hpos, hflash⟩ := storeByte_full succeedingFlash x h
      have hlen : (s.pend ++ [x]).length = 1024 := by
        have := s.flashCnt.isLt
        simp only [List.length_append, Stage.pend_length, List.length_singleton]
        omega
      obtain ⟨hok, hready, hlog⟩ := writeFlash_ready hs s.flashPos hlen
      have hpend : (storeByte succeedingFlash s x).pend = [] :=
        List.eq_nil_of_length_eq_zero (by rw [Stage.pend_length, hcnt])
      rw [if_pos hok] at hpos
      obtain ⟨h1, h2, h3, h4⟩ :=
        ih (s := storeByte succeedingFlash s x) (by rw [hflash]; exact hready)
      rw [hpend] at h2 h3 h4
      rw [hpos] at h3 h4
      rw [hflash, hlog] at h4
      rw [fill_cons_full x xs (by rwa [Stage.pend_length])]
      dsimp only
      refine ⟨h1, h2, ?_, ?_⟩
      · rw [h3, List.length_cons, Nat.mul_succ]
        omega
      · rw [h4, placed_cons, blocksLog, List.append_assoc]

theorem writeRest_ready {s : Stage Main} (hs : s.flash.Ready) :
    (writeRest succeedingFlash s).flash.Ready ∧
      (writeRest succeedingFlash s).flash.log =
        blocksLog (if 0 < (s.flashCnt : Nat) then [(s.flashPos, s.dataArr.toList)] else []) ++
          s.flash.log := by
  rw [writeRest_eq]
  by_cases h : 0 < (s.flashCnt : Nat)
  · have hlen : s.dataArr.toList.length = 1024 := Vector.length_toList
    obtain ⟨-, hready, hlog⟩ := writeFlash_ready hs s.flashPos hlen
    simp only [if_pos h]
    refine ⟨hready, ?_⟩
    rw [hlog, blocksLog, blocksLog, List.nil_append]
  · simp only [if_neg h]
    exact ⟨hs, rfl⟩

variable (cell : FlashCell) {f : Flash}

/-- **Block writes store the stream**, where flash is erased from the first block on. -/
theorem flashAfter_blocksLog {a : Nat} {bs : List (List UInt8)} (ha : 0x10000 ≤ a)
    (hmod : a % 1024 = 0) (hfit : a + 1024 * bs.length ≤ 0x80000) (hbs : ∀ b ∈ bs, b.length = 1024)
    (he : ∀ x, a ≤ x → x < 0x80000 → f.mem x = 0xFF) :
    (flashAfter cell f (blocksLog (placed 1024 a bs))).mem =
      overlay (fun _ y => y) f.mem a bs.flatten := by
  induction bs generalizing f a with
  | nil => rw [placed_nil, blocksLog, flashAfter_nil, List.flatten_nil, overlay_nil]
  | cons b bs ih =>
    have hb := hbs b (List.mem_cons_self ..)
    rw [List.length_cons, Nat.mul_succ, ← Nat.add_assoc] at hfit
    have hblock : UserBlock a := ⟨ha, by omega, hmod⟩
    have hmem := flashAfter_writeLog cell succeedingCclk (f := f) hblock hb he
    have hrest : ∀ x, a + 1024 ≤ x → x < 0x80000 →
        (flashAfter cell f (writeLog succeedingCclk a b)).mem x = 0xFF := by
      intro x hx hx'
      rw [hmem, overlay_above (by omega)]
      exact he x (by omega) hx'
    have htail := ih (a := a + 1024) (by omega) (by omega) (by omega)
      (fun c hc => hbs c (List.mem_cons_of_mem _ hc)) hrest
    rw [placed_cons, blocksLog, flashAfter_append, htail, hmem, ← hb, overlay_append,
      List.flatten_cons]

end Ready

/-! ## Any result codes -/

section InRange

variable {b : Board}

/-- `curlen` bytes have been taken and their full blocks fit user flash: the position is a block
address, and what has been written or waits is at most what has been taken. -/
structure Stage.InRange (s : Stage Main) (curlen : Int) : Prop where
  base : 0x10000 ≤ s.flashPos
  aligned : s.flashPos % 1024 = 0
  taken : (s.flashPos + s.flashCnt : Nat) ≤ 0x10000 + curlen
  guarded : s.flash.Guarded

theorem storeByte_inRange {s : Stage Main} {curlen : Int} (hs : s.InRange curlen)
    (hfit : curlen + 1 < 0x70400) (x : UInt8) :
    (storeByte (writeFlash b) s x).InRange (curlen + 1) := by
  obtain ⟨h1, h2, h3, h4⟩ := hs
  by_cases h : (s.flashCnt : Nat) + 1 < 1024
  · obtain ⟨-, hcnt, hpos, hflash⟩ := storeByte_lt (writeFlash b) x h
    refine ⟨by omega, by omega, by omega, by rwa [hflash]⟩
  · obtain ⟨hcnt, hpos, hflash⟩ := storeByte_full (writeFlash b) x h
    have hlt := s.flashCnt.isLt
    have hblock : UserBlock s.flashPos := ⟨h1, by omega, h2⟩
    have hg := writeFlash_guarded (b := b) h4 hblock (s.pend ++ [x]) 1024
    split at hpos
    · exact ⟨by omega, by omega, by omega, by rwa [hflash]⟩
    · exact ⟨by omega, by omega, by omega, by rwa [hflash]⟩

/-- **The block loop stays in user flash** while the full blocks fit it, for any codes. -/
theorem foldl_inRange {s : Stage Main} {curlen : Int} (hs : s.InRange curlen) (xs : List UInt8)
    (hfit : curlen + xs.length < 0x70400) :
    (xs.foldl (storeByte (writeFlash b)) s).InRange (curlen + xs.length) := by
  induction xs generalizing s curlen with
  | nil => simpa using hs
  | cons x xs ih =>
    rw [List.length_cons, Int.natCast_add] at hfit ⊢
    have := ih (storeByte_inRange (b := b) hs (by omega) x) (by omega)
    rw [List.foldl_cons]
    rwa [show curlen + ((xs.length : Int) + (1 : Nat)) = curlen + 1 + xs.length by omega]

theorem writeRest_inRange {s : Stage Main} {curlen : Int} (hs : s.InRange curlen)
    (hfit : curlen ≤ 0x70000) : (writeRest (writeFlash b) s).InRange curlen := by
  obtain ⟨h1, h2, h3, h4⟩ := hs
  rw [writeRest_eq]
  by_cases h : 0 < (s.flashCnt : Nat)
  · have hblock : UserBlock s.flashPos := ⟨h1, by omega, h2⟩
    have hg := writeFlash_guarded (b := b) h4 hblock s.dataArr.toList 1024
    simp only [if_pos h]
    refine ⟨h1, h2, h3, ?_⟩
    dsimp only
    exact hg
  · simp only [if_neg h]
    exact ⟨h1, h2, h3, h4⟩

end InRange

end AdcUdpStream.Loader
