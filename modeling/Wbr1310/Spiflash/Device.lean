import Wbr1310.Lib.Nor
import Wbr1310.Lib.Program

/-!
# The serial flash and its controller

The driver reaches the flash through three registers of the controller and, on boards with
the external circuit, through GPIO 0, which can hold the chip select low over several
transfers. What the flash receives is what is shifted out between two changes of its chip
select: one transfer, or all transfers made while GPIO 0 is low. The flash carries out a
command when it is deselected. How long the controller stays busy with a transfer and the
flash with a write is arbitrary, and given by the hardware.
-/

namespace Wbr1310.Spiflash

open Lib

abbrev Byte := BitVec 8

abbrev Word := BitVec 32

/-- The parts the driver knows. -/
inductive Part where
  | m25p80
  | m25p16
  | m25p32
  deriving DecidableEq, Repr

/-- `STM_8MBIT_SIGNATURE`, `STM_16MBIT_SIGNATURE` and `STM_32MBIT_SIGNATURE`. -/
def Part.signature : Part → Byte
  | .m25p80 => 0x13
  | .m25p16 => 0x14
  | .m25p32 => 0x15

/-- `STM_M25P80_BYTE_COUNT`, `STM_M25P16_BYTE_COUNT` and `STM_M25P32_BYTE_COUNT`. -/
def Part.byteCount : Part → ℕ
  | .m25p80 => 1048576
  | .m25p16 => 2097152
  | .m25p32 => 4194304

def stmPageSize : ℕ := 256

/-- `STM_M25P80_SECTOR_SIZE`, the same for all parts. -/
def stmSectorSize : ℕ := 0x10000

def stmOpWrEnable : Byte := 0x06
def stmOpWrDisable : Byte := 0x04
def stmOpRdStatus : Byte := 0x05
def stmOpPagePgrm : Byte := 0x02
def stmOpSectorErase : Byte := 0xd8
def stmOpRdSig : Byte := 0xab

/-- The hardware under the driver: the part, and how long each of its works lasts. -/
structure Hardware where
  part : Part
  /-- The reads of `SPI_FLASH_CTL` that find the controller busy after a transfer. -/
  shifting : ℕ → ℕ
  /-- The status reads that find a write in progress. -/
  writing : ℕ → ℕ

/-- The flash: its array, the write enable latch, and the status reads that will still find
a write in progress. -/
structure Chip where
  content : ℕ → Byte
  wel : Bool
  wip : ℕ

/-- What the bytes on the wire say. -/
inductive Command where
  | writeEnable
  | writeDisable
  | readStatus
  | readSignature
  | pageProgram (address : ℕ) (data : List Byte)
  | sectorErase (address : ℕ)

def addressOf (high middle low : Byte) : ℕ :=
  high.toNat * 65536 + middle.toNat * 256 + low.toNat

/-- The command that the bytes shifted in between two changes of the chip select are. -/
def decode : List Byte → Option Command
  | [] => none
  | code :: rest =>
    if code = stmOpRdStatus then some .readStatus
    else if code = stmOpRdSig then some .readSignature
    else match rest with
      | [] =>
        if code = stmOpWrEnable then some .writeEnable
        else if code = stmOpWrDisable then some .writeDisable
        else none
      | [high, middle, low] =>
        if code = stmOpSectorErase then some (.sectorErase (addressOf high middle low))
        else none
      | high :: middle :: low :: data =>
        if code = stmOpPagePgrm then some (.pageProgram (addressOf high middle low) data)
        else none
      | _ => none

namespace Chip

/-- The status register: `STM_STATUS_WIP` and `STM_STATUS_WEL`. -/
def status (chip : Chip) : Byte :=
  (if chip.wip = 0 then 0 else 0x01) ||| (if chip.wel then 0x02 else 0)

/-- A command is carried out. While a write is in progress only the status can be read, and
writes need the latch. Address bits above the size of the part are ignored. -/
def perform (hw : Hardware) (t : ℕ) (chip : Chip) : Command → Chip
  | .readStatus => { chip with wip := chip.wip - 1 }
  | .readSignature => chip
  | .writeEnable => if chip.wip = 0 then { chip with wel := true } else chip
  | .writeDisable => if chip.wip = 0 then { chip with wel := false } else chip
  | .pageProgram address data =>
    if chip.wip = 0 ∧ chip.wel then
      { content := Nor.program stmPageSize chip.content (address % hw.part.byteCount) data
        wel := false
        wip := hw.writing t }
    else chip
  | .sectorErase address =>
    if chip.wip = 0 ∧ chip.wel then
      { content := Nor.erase stmSectorSize chip.content (address % hw.part.byteCount)
        wel := false
        wip := hw.writing t }
    else chip

def receive (hw : Hardware) (t : ℕ) (chip : Chip) (bytes : List Byte) : Chip :=
  match decode bytes with
  | some command => chip.perform hw t command
  | none => chip

def reply (hw : Hardware) (chip : Chip) (bytes : List Byte) : Byte :=
  match decode bytes with
  | some .readStatus => chip.status
  | some .readSignature => if chip.wip = 0 then hw.part.signature else 0xff
  | _ => 0xff

@[simp]
theorem receive_nil (hw : Hardware) (t : ℕ) (chip : Chip) : chip.receive hw t [] = chip := rfl

end Chip

def spiCtlStart : Word := 0x00000100

def spiCtlBusy : Word := 0x00010000

def spiCtlTxRxCntMask : Word := 0x000000ff

/-- Byte `i` of a register, the low one first. -/
def byteOf (w : Word) (i : ℕ) : Byte := w.extractLsb' (8 * i) 8

/-- What a transfer of `count` bytes shifts out: the opcode register low byte first, then its
other bytes from high to low, then the data register low byte first. -/
def shiftOut (opcode data : Word) (count : ℕ) : List Byte :=
  [byteOf opcode 0, byteOf opcode 3, byteOf opcode 2, byteOf opcode 1,
    byteOf data 0, byteOf data 1, byteOf data 2, byteOf data 3].take count

/-- The driver's variables and the hardware they stand for. -/
structure Spi where
  chip : Chip
  /-- `SPI_FLASH_CTL` without the busy bit. -/
  ctl : Word
  /-- `SPI_FLASH_OPCODE`. -/
  opcode : Word
  /-- `SPI_FLASH_DATA`. -/
  data : Word
  /-- The reads of `SPI_FLASH_CTL` that will still find the controller busy. -/
  busy : ℕ
  /-- The transfers made so far. -/
  transfers : ℕ
  /-- `AR5315_GPIO_CR`. -/
  gpioCr : Word
  /-- `AR5315_GPIO_DO`. -/
  gpioDo : Word
  /-- The bytes shifted out since GPIO 0 went low. -/
  wire : List Byte
  spiflashCs : Bool
  ppMode : ℤ
  ppEnable : ℤ

namespace Spi

def selected (s : Spi) : Bool := s.gpioCr.getLsbD 0 && !s.gpioDo.getLsbD 0

/-- When GPIO 0 is not low, the flash has been deselected. -/
def settle (hw : Hardware) (s : Spi) : Spi :=
  if s.selected then s
  else { s with chip := s.chip.receive hw s.transfers s.wire, wire := [] }

/-- The transfer that the control register describes is made. -/
def transfer (hw : Hardware) (s : Spi) : Spi :=
  let bytes := shiftOut s.opcode s.data (s.ctl &&& 0xf).toNat
  let received := (s.ctl >>> 4 &&& 0xf).toNat
  if s.selected then
    { s with
      busy := hw.shifting s.transfers
      transfers := s.transfers + 1
      wire := s.wire ++ bytes }
  else
    { s with
      busy := hw.shifting s.transfers
      transfers := s.transfers + 1
      data := if received = 0 then s.data else (s.chip.reply hw bytes).setWidth 32
      chip := s.chip.receive hw s.transfers bytes }

end Spi

/-- The registers of the controller. -/
inductive Register where
  | ctl
  | opcode
  | data
  deriving DecidableEq, Repr

def spiflashRegread32 : Register → Program Spi Word
  | .ctl => fun s =>
    (some (if s.busy = 0 then s.ctl &&& ~~~spiCtlBusy else s.ctl ||| spiCtlBusy),
      { s with busy := s.busy - 1 })
  | .opcode => fun s => (some s.opcode, s)
  | .data => fun s => (some s.data, s)

def spiflashRegwrite32 (hw : Hardware) : Register → Word → Program Spi PUnit
  | .ctl, value => Program.modify fun s =>
    if value &&& spiCtlStart = 0 then { s with ctl := value }
    else Spi.transfer hw { s with ctl := value }
  | .opcode, value => Program.modify fun s => { s with opcode := value }
  | .data, value => Program.modify fun s => { s with data := value }

def chipSelect (hw : Hardware) (value : Bool) : Program Spi PUnit := do
  Program.modify fun s => Spi.settle hw { s with gpioCr := s.gpioCr ||| 0x1 }
  Program.modify fun s => Spi.settle hw
    { s with gpioDo := if value then s.gpioDo ||| 0x1 else s.gpioDo &&& ~~~0x1 }

/-- The loop of `SET_SPI_ACTIVITY` does not end when the mark is set and nobody clears it. -/
def setSpiActivity : Program Spi PUnit := Program.update fun s =>
  if s.spiflashCs then none else some { s with spiflashCs := true }

def clearSpiActivity (hw : Hardware) : Program Spi PUnit := do
  chipSelect hw true
  Program.modify fun s => { s with spiflashCs := false }

end Wbr1310.Spiflash
