import AdcUdpStream.Lib.Overlay
import AdcUdpStream.Loader.Iap

/-!
# What the IAP commands do to the flash

The flash array with its write protection: `PREPARE` unprotects sectors, `ERASE`
sets unprotected sectors to `0xFF`, `COPY` programs bytes into an unprotected
sector, and both protect again what they touched. A command that failed changes
nothing. How programming combines with a byte that is not erased is left open
(`FlashCell`): only an erased cell is promised to take the byte.

`flashAfter f log` replays a log on the array `f`.
-/

namespace AdcUdpStream.Loader

open Overlay

/-- Programming `y` over `x` gives `program x y`. -/
structure FlashCell where
  program : UInt8 → UInt8 → UInt8
  program_erased : ∀ y, program 0xFF y = y

/-- Flash bits can only be cleared. -/
def FlashCell.nor : FlashCell := ⟨fun x y => x &&& y, fun y => by
  apply UInt8.toBitVec_inj.mp
  show BitVec.allOnes 8 &&& y.toBitVec = y.toBitVec
  exact BitVec.allOnes_and⟩

structure Flash where
  mem : Nat → UInt8
  prepared : Nat → Bool

def sectorOf (a : Nat) : Nat := if a < 0x10000 then a / 0x1000 else a / 0x8000 + 14

def Flash.exec (cell : FlashCell) (f : Flash) (e : IapEvent) : Flash :=
  if e.result = cmdSuccess then
    match e.command with
    | .prepareSectorForWrite s t _ =>
      { f with prepared := fun i => decide (s ≤ i ∧ i ≤ t) || f.prepared i }
    | .eraseSector s t _ =>
      { mem := fun a =>
          if s ≤ sectorOf a ∧ sectorOf a ≤ t ∧ f.prepared (sectorOf a) then 0xFF else f.mem a
        prepared := fun i => f.prepared i && !decide (s ≤ i ∧ i ≤ t) }
    | .copyRamToFlash dst data count _ =>
      if f.prepared (sectorOf dst) then
        { mem := overlay cell.program f.mem dst (data.take count)
          prepared := fun i => f.prepared i && decide (i ≠ sectorOf dst) }
      else f
  else f

/-- The array after a log (newest command first). -/
def flashAfter (cell : FlashCell) (f : Flash) (log : List IapEvent) : Flash :=
  log.foldr (fun e f => f.exec cell e) f

/-- Sectors 16 to 29 hold `0xFF`. -/
def Flash.UserErased (f : Flash) : Prop :=
  ∀ a, userFlashStart ≤ a → a ≤ userFlashEnd → f.mem a = 0xFF

/-- The blocks a log programs, oldest first, with their addresses. -/
def programOps (log : List IapEvent) : List (Nat × List UInt8) :=
  (log.filterMap fun e =>
    match e.command with
    | .copyRamToFlash dst data _ _ => some (dst, data)
    | _ => none).reverse

variable (cell : FlashCell) (f : Flash) (log log' : List IapEvent)

@[simp] theorem flashAfter_nil : flashAfter cell f [] = f := rfl

@[simp] theorem flashAfter_cons (e : IapEvent) :
    flashAfter cell f (e :: log) = (flashAfter cell f log).exec cell e := rfl

theorem flashAfter_append :
    flashAfter cell f (log' ++ log) = flashAfter cell (flashAfter cell f log) log' := by
  simp [flashAfter, List.foldr_append]

theorem programOps_append : programOps (log' ++ log) = programOps log ++ programOps log' := by
  simp [programOps, List.filterMap_append]

/-! ## Sector arithmetic -/

theorem mem_userSectors {i : Nat} : i ∈ userSectors ↔ 16 ≤ i ∧ i ≤ 29 := by
  simp [userSectors, userStartSector, maxUserSector, List.mem_range'_1]
  omega

theorem sectorOf_user {a : Nat} (ha : 0x10000 ≤ a) : sectorOf a = a / 0x8000 + 14 := by
  rw [sectorOf, if_neg (by omega)]

theorem sectorStart_user {i : Nat} (hi : 16 ≤ i) : sectorStart i = (i - 14) * 0x8000 := by
  rw [sectorStart, if_neg (by omega)]

theorem sectorEnd_user {i : Nat} (hi : 16 ≤ i) : sectorEnd i = (i - 14) * 0x8000 + 0x7FFF := by
  rw [sectorEnd, if_neg (by omega)]

theorem sectorOf_bounds (a : Nat) : sectorStart (sectorOf a) ≤ a ∧ a ≤ sectorEnd (sectorOf a) := by
  by_cases ha : a < 0x10000
  · have hs : sectorOf a = a / 0x1000 := by rw [sectorOf, if_pos ha]
    have h16 : a / 0x1000 < 16 := by omega
    rw [hs, sectorStart, sectorEnd, if_pos h16, if_pos h16]
    omega
  · rw [sectorOf_user (by omega), sectorStart_user (by omega), sectorEnd_user (by omega)]
    omega

/-- **The search finds the sector of the address**, for every address of user flash that is not
the last byte of a sector. -/
theorem find_userSector {a : Nat} (h1 : 0x10000 ≤ a) (h2 : a < 0x80000)
    (hend : a % 0x8000 ≠ 0x7FFF) :
    userSectors.find? (fun i => decide (a < sectorEnd i)) = some (sectorOf a) := by
  have hs := sectorOf_user h1
  have h16 : 16 ≤ sectorOf a ∧ sectorOf a ≤ 29 := by omega
  rw [userSectors, List.find?_range'_eq_some]
  refine ⟨?_, mem_userSectors.mpr h16, fun j hj hlt => ?_⟩
  · rw [sectorEnd_user h16.1]
    simp only [decide_eq_true_eq]
    omega
  · have hj : 16 ≤ j := hj
    rw [sectorEnd_user hj]
    simp only [Bool.not_eq_true', decide_eq_false_iff_not, not_lt]
    omega

end AdcUdpStream.Loader
