import AdcUdpStream.Lib.CStr

/-!
# Flash writing in the boot loader (`main.c`)

The sector table, the three IAP commands the loader issues, and `write_flash`.
The chip is a parameter: `Board.iapResult` is the result code the IAP ROM writes
into `result_table[0]`, as an arbitrary function of the commands issued before
and of the command itself. Every command is logged with its result, newest
first; what the commands do to the flash array is in `Flash.lean`.
-/

namespace AdcUdpStream.Loader

def cmdSuccess : Nat := 0

/-! ## Sectors -/

def sectorStart (sector : Nat) : Nat :=
  if sector < 16 then sector * 0x1000 else (sector - 14) * 0x8000

def sectorEnd (sector : Nat) : Nat :=
  if sector < 16 then sector * 0x1000 + 0xFFF else (sector - 14) * 0x8000 + 0x7FFF

def userStartSector : Nat := 16
def maxUserSector : Nat := 29
def flashBufSize : Nat := 1024
def userFlashStart : Nat := sectorStart userStartSector
def userFlashEnd : Nat := sectorEnd maxUserSector

/-- The sectors of the search loop, in its order. -/
def userSectors : List Nat := List.range' userStartSector (maxUserSector + 1 - userStartSector)

/-! ## IAP commands -/

/-- The parameter table of a command. `data` is what lies in RAM at the source pointer. -/
inductive IapCommand where
  | prepareSectorForWrite (startSector endSector cclk : Nat)
  | copyRamToFlash (flashAddress : Nat) (data : List UInt8) (count cclk : Nat)
  | eraseSector (startSector endSector cclk : Nat)
  deriving DecidableEq

/-- A command with the code it returned. -/
structure IapEvent where
  command : IapCommand
  result : Nat
  deriving DecidableEq

/-- What the code takes from the chip: the core clock and the IAP ROM's answers. -/
structure Board where
  systemCoreClock : Nat
  iapResult : List IapEvent → IapCommand → Nat

def Board.succeeding : Board := ⟨12000000, fun _ _ => cmdSuccess⟩

/-- The statics of `main.c`; `flashAddress = 0` is `NULL`. `flashBuf` is RAM from `flash_buf` on, and
the array is its first `flashBufSize` bytes. Behind it the committed map file has `lpc_netif`,
`param_table`, `result_table`, `curlen`, `current_connection` and `dataArr`, which a store past the
array overwrites there and does not touch here: the model is the program up to the first such
store. -/
structure Main where
  flashAddress : Nat := 0
  byteCtr : Nat := 0
  flashBuf : Nat → UInt8 := fun _ => 0
  resultTable : Nat := 0
  log : List IapEvent := []

variable (b : Board)

def iapEntry (m : Main) (c : IapCommand) : Main :=
  { m with resultTable := b.iapResult m.log c, log := ⟨c, b.iapResult m.log c⟩ :: m.log }

def prepareSector (m : Main) (startSector endSector cclk : Nat) : Main :=
  iapEntry b m (.prepareSectorForWrite startSector endSector cclk)

def eraseSector (m : Main) (startSector endSector cclk : Nat) : Main :=
  iapEntry b m (.eraseSector startSector endSector cclk)

def writeData (m : Main) (cclk flashAddress : Nat) (flashDataBuf : Nat → UInt8) (count : Nat) :
    Main :=
  iapEntry b m (.copyRamToFlash flashAddress ((List.range count).map flashDataBuf) count cclk)

/-- The loop breaks at the first sector whose last byte lies above the address; when there is
none it issues no command. -/
def findErasePrepareSector (m : Main) (cclk flashAddress : Nat) : Main :=
  match userSectors.find? (fun i => flashAddress < sectorEnd i) with
  | some i =>
    let m := if flashAddress = sectorStart i then
        eraseSector b (prepareSector b m i i cclk) i i cclk
      else m
    prepareSector b m i i cclk
  | none => m

/-- Returns the code of the call and the statics after it. -/
def writeFlash (m : Main) (dst : Nat) (src : List UInt8) (noOfBytes : Nat) : Nat × Main :=
  let m := if m.flashAddress = 0 then { m with flashAddress := dst } else m
  let m := { m with
    flashBuf := fun k =>
      if m.byteCtr ≤ k ∧ k < m.byteCtr + noOfBytes then src.getD (k - m.byteCtr) 0
      else m.flashBuf k
    byteCtr := (m.byteCtr + noOfBytes) % 2 ^ 32 }
  if m.byteCtr = flashBufSize then
    -- enough bytes for a flash write
    let m := findErasePrepareSector b m (b.systemCoreClock / 1000) m.flashAddress
    if m.resultTable ≠ cmdSuccess then (m.resultTable, m)
    else
      let m := writeData b m (b.systemCoreClock / 1000) m.flashAddress m.flashBuf flashBufSize
      if m.resultTable ≠ cmdSuccess then (m.resultTable, m)
      else (cmdSuccess, { m with byteCtr := 0, flashAddress := 0 })
  else (cmdSuccess, m)

/-- The commands of `main` before the server loop. A failed one is only reported. -/
def eraseUserSectors : Main :=
  let m := prepareSector b {} userStartSector maxUserSector 14748
  let m := eraseSector b m userStartSector maxUserSector 14748
  prepareSector b m userStartSector maxUserSector 14748

end AdcUdpStream.Loader
